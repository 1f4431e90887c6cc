import LineScript.Trace

/-!
# Reduction of a list of siblings

A list of operands and symbols becomes one tree. The symbols of each tier find their operands in
one sweep over the list, the tightest tier first: steps behind an operand, prefix symbols, the
tiers of binary symbols from left to right, assignments from right to left. A compound assignment
takes its target as the first operand of its operation too.

What is left then is settled: a label makes an entry of all that follows, one tree stands for
itself, a function name calls the function with the rest, and several trees are joined.

A call is placed where its first sibling stands.
-/

namespace LineScript

/-- What decides how a list is settled. -/
structure Dialect where
  /-- Knows the functions that names call. -/
  registry : Registry
  /-- How trees that are left next to each other are joined. -/
  mode : JoinMode

namespace Reduction

open Traced

/-! ### Checks -/

/-- Refuse holes, and symbols that stand for no operation. -/
def checkKnown : List Tree → Traced Unit
  | [] => pure ()
  | .hole :: _ => fail .hole
  | .symbol p spelling _ :: ts =>
    if Operator.isKnown spelling then checkKnown ts else complain (.unknownSymbol spelling) p
  | _ :: ts => checkKnown ts

/-- Refuse a tree that cannot be an operand. -/
def checkOperand : Tree → Traced Unit
  | .hole => fail .hole
  | .symbol p spelling _ => complain (.misplacedSymbol spelling) p
  | .label p name => complain (.misplacedSymbol (name ++ ":")) p
  | .identifier p name => complain (.misplacedIdentifier name) p
  | _ => pure ()

/-- Refuse a symbol that found no operands. -/
def checkConsumed : List Tree → Traced Unit
  | [] => pure ()
  | .symbol p spelling _ :: _ => complain (.misplacedSymbol spelling) p
  | _ :: ts => checkConsumed ts

/-! ### Steps behind an operand -/

/-- The postfix sweep over `t` and what follows it. -/
def postfixFrom (t : Tree) : List Tree → List Tree
  | [] => [t]
  | .symbol p spelling fixity :: ts =>
    if Operator.isPostfix spelling fixity && t.isOperand then
      postfixFrom (.call t.place (Operator.operation spelling fixity) [t]) ts
    else t :: postfixFrom (.symbol p spelling fixity) ts
  | u :: ts => t :: postfixFrom u ts

/-- Give every step that follows an operand this operand. -/
def postfixSweep : List Tree → List Tree
  | [] => []
  | t :: ts => postfixFrom t ts

/-! ### Prefix symbols -/

/-- A symbol behind the trees `before`, the nearest first, takes what follows it as its operand. A
sign does so only where no operand comes before it. -/
def isPrefixAfter (before : List Tree) (spelling : String) (fixity : Fixity) : Bool :=
  Operator.isUnary spelling fixity &&
    !(Operator.isSign spelling && before.head?.any Tree.isOperand)

/-- Put a tree that is no symbol behind the trees `before`, the nearest first. Prefix symbols
directly before it take it as their operand, the nearest first. -/
def absorb (t : Tree) : List Tree → Traced (List Tree)
  | .symbol p spelling fixity :: before =>
    if isPrefixAfter before spelling fixity then do
      checkOperand t
      step (.unary spelling p)
      absorb (.call p (Operator.prefixOperation spelling fixity) [t]) before
    else pure (t :: .symbol p spelling fixity :: before)
  | before => pure (t :: before)

/-- The prefix sweep, when the trees `before`, the nearest first, have been passed. -/
def prefixFrom (before : List Tree) : List Tree → Traced (List Tree)
  | [] => pure before.reverse
  | t :: ts =>
    if t.isSymbol then prefixFrom (t :: before) ts
    else do prefixFrom (← absorb t before) ts

/-- Give every prefix symbol the operand behind it. -/
def prefixSweep (ts : List Tree) : Traced (List Tree) :=
  prefixFrom [] ts

/-! ### Binary symbols -/

/-- The sweep of a binary tier over `left` and what follows it. -/
def binaryFrom (tier : Tier) (left : Tree) : List Tree → Traced (List Tree)
  | [] => pure [left]
  | .symbol p spelling fixity :: ts =>
    if tier.holds spelling then
      match ts with
      | [] => complain (.misplacedSymbol spelling) p
      | right :: ts => do
        checkOperand left
        checkOperand right
        step (.binary tier spelling p)
        binaryFrom tier (.call left.place (Operator.operation spelling fixity) [left, right]) ts
    else do return left :: (← binaryFrom tier (.symbol p spelling fixity) ts)
  | t :: ts => do return left :: (← binaryFrom tier t ts)

/-- Give every symbol of a tier the operands beside it, from left to right. -/
def binarySweep (tier : Tier) : List Tree → Traced (List Tree)
  | [] => pure []
  | t :: ts => binaryFrom tier t ts

/-- The sweeps of all binary tiers. -/
def binarySweeps (ts : List Tree) : Traced (List Tree) :=
  Tier.all.foldlM (fun ts tier => binarySweep tier ts) ts

/-! ### Assignments -/

/-- The complaint about an assignment with nothing behind it. -/
def unassigned (spelling : String) : Complaint :=
  if (Operator.compound? spelling).isSome then .missingValue spelling
  else .misplacedSymbol spelling

/-- The call that an assignment becomes. -/
def assignment (spelling : String) (target value : Tree) : Tree :=
  let value :=
    match Operator.compound? spelling with
    | some operation => .call target.place operation [target, value]
    | none => value
  .call target.place Operator.assign [target, value]

/-- Give an assignment at the head of `ts`, where all others have been treated, the operands
beside it. -/
def assign (left : Tree) : List Tree → Traced (List Tree)
  | .symbol p spelling fixity :: ts =>
    if Operator.isAssignment spelling then
      match ts with
      | [] => complain (unassigned spelling) p
      | right :: ts => do
        checkOperand left
        checkOperand right
        step (.assignment spelling p)
        return assignment spelling left right :: ts
    else pure (left :: .symbol p spelling fixity :: ts)
  | ts => pure (left :: ts)

/-- Give every assignment the operands beside it, from right to left. -/
def assignmentSweep : List Tree → Traced (List Tree)
  | [] => pure []
  | t :: ts => do assign t (← assignmentSweep ts)

/-! ### What is left -/

/-- The call of a function by its bare name. -/
def implicitCall (registry : Registry) (p : Location) (name : String) (arguments : List Tree) :
    Traced Tree :=
  let argument :=
    match arguments with
    | [t] => t
    | ts => .join (ts.headD .hole).place .string ts
  match registry.lookup name with
  | none => fail (.unresolvedCall name p)
  | some descriptor => do
    step (.implicitCall descriptor.name p)
    return .call p descriptor.name [argument]

/-- Join trees, unless a function name is among them. -/
def joined (mode : JoinMode) (place : Location) (ts : List Tree) : Traced Tree :=
  let misplaced := ts.findSome? fun t =>
    match t with
    | .identifier p name => some (p, name)
    | _ => none
  match misplaced with
  | some (p, name) => complain (.misplacedIdentifier name) p
  | none => pure (.join ((ts.head?.map Tree.place).getD place) mode ts)

/-- One tree for a list without symbols; an empty one is placed at `place`. -/
def settle (d : Dialect) (place : Location) : List Tree → Traced Tree
  | .label p name :: ts => do return .entry p (.label p name) (← settle d p ts)
  | [t] => pure t
  | .identifier p name :: ts => implicitCall d.registry p name ts
  | ts => joined d.mode place ts

/-- The tree of a list of siblings; an empty one is placed at `place`. -/
def reduce (d : Dialect) (place : Location) (ts : List Tree) : Traced Tree := do
  checkKnown ts
  let ts ← prefixSweep (postfixSweep ts)
  let ts ← assignmentSweep (← binarySweeps ts)
  checkConsumed ts
  settle d place ts

end Reduction

end LineScript
