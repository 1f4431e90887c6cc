import LineScript.Location
import LineScript.Operator
import LineScript.Value

/-!
# Trees

A script line is first a tree of groups, in which the siblings of a list stand side by side as
they were written: operands, and between them symbols, labels and bare function names. The list is
a call of `Tree.listName`. Reduction replaces every list by one operand, in which operators have
become calls.

Each tree carries the place it comes from. The children of a call or a join, the value of an entry
and the content of a bracket or brace are trees again; `Tree.hole` stands where one of these is
missing.
-/

namespace LineScript

/-- How operands that stand next to each other are joined: as texts or as a list. -/
inductive JoinMode where
  | string
  | list
deriving DecidableEq, Inhabited

/-- A tree of a script. -/
inductive Tree where
  /-- Nothing where a tree may stand. -/
  | hole
  /-- An operator symbol that waits for reduction. -/
  | symbol (place : Location) (spelling : String) (fixity : Fixity)
  /-- The name of an entry, with a colon behind it. -/
  | label (place : Location) (name : String)
  /-- A function name without parentheses. -/
  | identifier (place : Location) (name : String)
  | literal (place : Location) (value : Value)
  | variable (place : Location) (name : String)
  /-- The value of an empty group. -/
  | void (place : Location)
  | call (place : Location) (name : String) (children : List Tree)
  | entry (place : Location) (label value : Tree)
  | join (place : Location) (mode : JoinMode) (children : List Tree)
  | bracket (place : Location) (content : Tree)
  | brace (place : Location) (content : Tree)
deriving Inhabited

namespace Tree

/-! ### Names of the calls that hold structure -/

/-- The call that holds the siblings of a list before reduction. -/
def listName : String := "__autoconcat__"

/-- The call that a parenthesised group is before reduction. -/
def parenName : String := "p"

/-- The call that a bracketed group is before reduction. -/
def bracketName : String := "__cbracket__"

/-- The call that a braced group is before reduction. -/
def braceName : String := "__cbrace__"

/-! ### Kinds -/

/-- The kinds of trees. -/
inductive Kind where
  | symbol | label | identifier | literal | variable | void | call | entry | concat
  | sequentialConcat | bracket | brace
deriving DecidableEq

/-- The kind of a tree; a hole has none. -/
def kind? : Tree → Option Kind
  | .hole => none
  | .symbol .. => some .symbol
  | .label .. => some .label
  | .identifier .. => some .identifier
  | .literal .. => some .literal
  | .variable .. => some .variable
  | .void .. => some .void
  | .call .. => some .call
  | .entry .. => some .entry
  | .join _ .list _ => some .concat
  | .join _ .string _ => some .sequentialConcat
  | .bracket .. => some .bracket
  | .brace .. => some .brace

/-- The tree can stand where an operator expects an operand. -/
def isOperand : Tree → Bool
  | .hole | .symbol .. | .label .. | .identifier .. => false
  | _ => true

/-- The tree is an operator symbol. -/
def isSymbol : Tree → Bool
  | .symbol .. => true
  | _ => false

/-- The tree is a label. -/
def isLabel : Tree → Bool
  | .label .. => true
  | _ => false

/-- The place a tree comes from. -/
def place : Tree → Location
  | .hole => .unknown
  | .symbol p .. | .label p .. | .identifier p .. | .literal p .. | .variable p .. | .void p
  | .call p .. | .entry p .. | .join p .. | .bracket p .. | .brace p .. => p

/-- The name that a tree carries, if its kind has one. -/
def name : Tree → String
  | .label _ name | .identifier _ name | .variable _ name | .call _ name _ => name
  | _ => ""

/-- The kind of tree has a name. -/
def Kind.isNamed : Kind → Bool
  | .label | .identifier | .variable | .call => true
  | _ => false

@[simp] theorem isOperand_hole : Tree.hole.isOperand = false := rfl

@[simp] theorem isOperand_symbol (p : Location) (s : String) (f : Fixity) :
    (Tree.symbol p s f).isOperand = false := rfl

@[simp] theorem isOperand_label (p : Location) (s : String) :
    (Tree.label p s).isOperand = false := rfl

@[simp] theorem isOperand_identifier (p : Location) (s : String) :
    (Tree.identifier p s).isOperand = false := rfl

@[simp] theorem isOperand_call (p : Location) (s : String) (ts : List Tree) :
    (Tree.call p s ts).isOperand = true := rfl

theorem isSymbol_eq_false_of_isOperand {t : Tree} (h : t.isOperand = true) :
    t.isSymbol = false := by
  cases t <;> simp_all [isSymbol]

theorem isSymbol_eq_false_of_ne {t : Tree} (h : ∀ p s f, t ≠ .symbol p s f) :
    t.isSymbol = false := by
  cases t <;> first | rfl | exact absurd rfl (h _ _ _)

end Tree

end LineScript
