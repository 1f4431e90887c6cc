import LineScript.Reduction
import LineScript.Proofs.Operator
import Mathlib.Tactic.Common

/-!
# The grammar of siblings

What a list of operands and symbols stands for, said without a sweep. Four relations between a
list and its tree follow the precedence of the symbols from tight to loose: `Stepped` for steps
behind an operand, `Signed` for the prefix symbols before it, `Tiered` for the binary tiers, each
of them grouping to the left, and `Assigned` for assignments, which group to the right.

`IsPhrase` describes the same lists flatly, as units with single symbols between them. A flat
phrase has a tree (`IsPhrase.exists_assigned`).
-/

namespace LineScript

namespace Tree

/-- A symbol that may precede its operand. -/
def isPrefixSymbol : Tree → Bool
  | .symbol _ s f => Operator.isUnary s f
  | _ => false

/-- A step that follows its operand. -/
def isPostfixSymbol : Tree → Bool
  | .symbol _ s f => Operator.isPostfix s f
  | _ => false

/-- A plus or minus sign. -/
def isSignSymbol : Tree → Bool
  | .symbol _ s _ => Operator.isSign s
  | _ => false

/-- A symbol that stands between two operands. -/
def isJointSymbol : Tree → Bool
  | .symbol _ s _ => Operator.isJoint s
  | _ => false

/-- Not a symbol without an operation. -/
def isKnown : Tree → Bool
  | .symbol _ s _ => Operator.isKnown s
  | _ => true

end Tree

namespace Reduction

/-! ### Precedence -/

/-- An operand with steps behind it. -/
inductive Stepped : List Tree → Tree → Prop where
  | operand {t : Tree} (h : t.isOperand = true) : Stepped [t] t
  | step {l : List Tree} {t : Tree} {p : Location} {s : String} {f : Fixity}
      (hs : Operator.isPostfix s f = true) (h : Stepped l t) :
      Stepped (l ++ [.symbol p s f]) (.call t.place (Operator.operation s f) [t])

/-- Prefix symbols before a stepped operand; the nearest takes it first. -/
inductive Signed : List Tree → Tree → Prop where
  | stepped {l : List Tree} {t : Tree} (h : Stepped l t) : Signed l t
  | sign {l : List Tree} {t : Tree} {p : Location} {s : String} {f : Fixity}
      (hs : Operator.isUnary s f = true) (h : Signed l t) :
      Signed (.symbol p s f :: l) (.call p (Operator.prefixOperation s f) [t])

/-- Operands joined by symbols of the given tiers, the loosest tier first. The left operand of a
symbol may contain symbols of its own tier, the right one may not. -/
inductive Tiered : List Tier → List Tree → Tree → Prop where
  | signed {l : List Tree} {t : Tree} (h : Signed l t) : Tiered [] l t
  | tighter {tier : Tier} {tiers : List Tier} {l : List Tree} {t : Tree}
      (h : Tiered tiers l t) : Tiered (tier :: tiers) l t
  | binary {tier : Tier} {tiers : List Tier} {l m : List Tree} {a b : Tree} {p : Location}
      {s : String} {f : Fixity} (hs : tier.holds s = true) (hl : Tiered (tier :: tiers) l a)
      (hm : Tiered tiers m b) :
      Tiered (tier :: tiers) (l ++ .symbol p s f :: m)
        (.call a.place (Operator.operation s f) [a, b])

/-- Assignments of joined operands; the value may be an assignment, the target may not. A compound
one assigns the result of its operator between the target and the value. -/
inductive Assigned : List Tree → Tree → Prop where
  | value {l : List Tree} {t : Tree} (h : Tiered Tier.all.reverse l t) : Assigned l t
  | assign {l m : List Tree} {a b : Tree} {p : Location} {f : Fixity}
      (hl : Tiered Tier.all.reverse l a) (hm : Assigned m b) :
      Assigned (l ++ .symbol p "=" f :: m) (.call a.place Operator.assign [a, b])
  | compound {l m : List Tree} {a b : Tree} {p : Location} {s : String} {f : Fixity}
      (hs : Operator.isAssignment s = true) (hcompound : s ≠ "=")
      (hl : Tiered Tier.all.reverse l a) (hm : Assigned m b) :
      Assigned (l ++ .symbol p s f :: m) (.call a.place Operator.assign
        [a, .call a.place (Operator.operation (Operator.withoutEquals s) .between) [a, b]])

/-- What an assignment becomes, by its spelling. -/
lemma assignment_eq {s : String} (hs : Operator.isAssignment s = true) (a b : Tree) :
    assignment s a b = .call a.place Operator.assign [a, if s = "=" then b else
      .call a.place (Operator.operation (Operator.withoutEquals s) .between) [a, b]] := by
  rw [assignment, Operator.compound?_eq hs]
  split_ifs <;> rfl

lemma Assigned.assignment {l m : List Tree} {a b : Tree} {p : Location} {s : String} {f : Fixity}
    (hs : Operator.isAssignment s = true) (hl : Tiered Tier.all.reverse l a) (hm : Assigned m b) :
    Assigned (l ++ .symbol p s f :: m) (assignment s a b) := by
  rw [assignment_eq hs]
  split_ifs with hplain
  · subst hplain
    exact .assign hl hm
  · exact .compound hs hplain hl hm

/-! ### Phrases -/

/-- Prefix symbols, an operand, and steps behind it. -/
def IsUnit (l : List Tree) : Prop :=
  ∃ signs t steps, l = signs ++ t :: steps ∧ (∀ u ∈ signs, u.isPrefixSymbol = true) ∧
    t.isOperand = true ∧ ∀ u ∈ steps, u.isPostfixSymbol = true

/-- Units with a binary symbol or an assignment between any two neighbours. -/
inductive IsPhrase : List Tree → Prop where
  | unit {l : List Tree} (h : IsUnit l) : IsPhrase l
  | joined {l m : List Tree} {j : Tree} (hl : IsUnit l) (hj : j.isJointSymbol = true)
      (hm : IsPhrase m) : IsPhrase (l ++ j :: m)

/-- The list begins with a plus or minus sign. -/
def beginsWithSign (l : List Tree) : Bool :=
  l.head?.any Tree.isSignSymbol

/-- The list is cut into phrases, none of which after the first begins with a sign. -/
structure IsSplit (ts : List Tree) (phrases : List (List Tree)) : Prop where
  flatten_eq : phrases.flatten = ts
  isPhrase : ∀ l ∈ phrases, IsPhrase l
  unsigned : ∀ l ∈ phrases.tail, beginsWithSign l = false

/-- The tree of a list without symbols: a single tree is itself, several are joined. -/
def united (mode : JoinMode) (place : Location) : List Tree → Tree
  | [t] => t
  | ts => .join ((ts.head?.map Tree.place).getD place) mode ts

end Reduction

end LineScript
