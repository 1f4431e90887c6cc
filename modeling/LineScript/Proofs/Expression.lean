import LineScript.Proofs.Operator
import LineScript.Proofs.Token.Vocabulary
import LineScript.Tree

/-!
# Expressions and how they are written

An expression is made of variables, numbers and operators. `Expr.tree` is the tree it stands for.
`Expr.Writes` holds of all texts of an expression: the spellings of its parts in order, with
parentheses around any part, and at least around those whose top operator binds too loosely for
where the part stands.
-/

namespace LineScript

/-- How loosely a tier binds, beside the steps (1), the prefix symbols (2) and assignment (10). -/
def Tier.rank (tier : Tier) : Nat := Tier.all.idxOf tier + 3

lemma Tier.rank_le (tier : Tier) : tier.rank ≤ 10 := by
  cases tier <;> decide

/-- An expression of the operator language. -/
inductive Expr where
  | var (name : VarName)
  | num (n : Nat) (hn : n < Numeral.bound)
  | before (s : String) (hs : Operator.isUnary s .before = true) (e : Expr)
  | after (s : String) (hs : Operator.isStep s = true) (e : Expr)
  | binary (tier : Tier) (s : String) (hs : tier.holds s = true) (a b : Expr)
  | assign (s : String) (hs : Operator.isAssignment s = true) (a b : Expr)

namespace Expr

/-- The calls that an expression stands for, without places. A compound assignment assigns what its
operator makes of its target and its value. -/
def tree : Expr → Tree
  | .var name => .variable .unknown name.text
  | .num n _ => .literal .unknown (.int n)
  | .before s _ e => .call .unknown (Operator.prefixOperation s .before) [e.tree]
  | .after s _ e => .call .unknown (Operator.operation s .after) [e.tree]
  | .binary _ s _ a b => .call .unknown (Operator.operation s .between) [a.tree, b.tree]
  | .assign s _ a b =>
    if s = "=" then .call .unknown Operator.assign [a.tree, b.tree]
    else .call .unknown Operator.assign [a.tree,
      .call .unknown (Operator.operation (Operator.withoutEquals s) .between) [a.tree, b.tree]]

/-- How loosely the top operator of an expression binds. -/
def rank : Expr → Nat
  | .var _ | .num _ _ => 0
  | .after _ _ _ => 1
  | .before _ _ _ => 2
  | .binary tier _ _ _ _ => tier.rank
  | .assign _ _ _ _ => 10

lemma rank_le (e : Expr) : e.rank ≤ 10 := by
  cases e with
  | binary tier => exact tier.rank_le
  | _ => simp [rank]

/-- The texts of an expression. The flag says that the whole stands in parentheses. -/
inductive Writes : Bool → Expr → List Spelling → Prop where
  | var (name : VarName) : Writes false (.var name) [.ofVariable name]
  | num {n : Nat} {hn : n < Numeral.bound} (digits : Digits) (h : digits.value = n) :
      Writes false (.num n hn) [.ofDigits digits]
  | before {s : String} {hs : Operator.isUnary s .before = true} {b : Bool} {e : Expr}
      {xs : List Spelling} (h : Writes b e xs) (hrank : b = true ∨ e.rank ≤ 2) :
      Writes false (.before s hs e) (.ofSymbol s (Operator.isKnown_of_isUnary hs) :: xs)
  | after {s : String} {hs : Operator.isStep s = true} {b : Bool} {e : Expr}
      {xs : List Spelling} (h : Writes b e xs) (hrank : b = true ∨ e.rank = 0) :
      Writes false (.after s hs e) (xs ++ [.ofSymbol s (Operator.isKnown_of_isStep hs)])
  | binary {tier : Tier} {s : String} {hs : tier.holds s = true} {b b' : Bool} {e e' : Expr}
      {xs ys : List Spelling} (hl : Writes b e xs) (hr : Writes b' e' ys)
      (hleft : b = true ∨ e.rank ≤ tier.rank) (hright : b' = true ∨ e'.rank < tier.rank) :
      Writes false (.binary tier s hs e e')
        (xs ++ .ofSymbol s (Operator.isKnown_of_isJoint (Operator.isJoint_of_holds hs)) :: ys)
  | assign {s : String} {hs : Operator.isAssignment s = true} {b b' : Bool} {e e' : Expr}
      {xs ys : List Spelling} (hl : Writes b e xs) (hr : Writes b' e' ys)
      (hleft : b = true ∨ e.rank < 10) :
      Writes false (.assign s hs e e') (xs ++
        .ofSymbol s (Operator.isKnown_of_isJoint (Operator.isJoint_of_isAssignment hs)) :: ys)
  | parens {b : Bool} {e : Expr} {xs : List Spelling} (h : Writes b e xs) :
      Writes true e (.ofDelimiter '(' .leftParen rfl :: (xs ++ [.ofDelimiter ')' .rightParen rfl]))

end Expr

end LineScript
