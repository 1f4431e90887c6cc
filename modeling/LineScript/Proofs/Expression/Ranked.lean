import LineScript.Proofs.Reduction.Completeness
import LineScript.Proofs.Expression

/-!
# The grammar by rank

The levels of the grammar of siblings, numbered like the ranks of expressions: an operand alone is
at rank zero, and what is at one rank is at every greater one.
-/

namespace LineScript

namespace Reduction

/-- The list stands for the tree and has no symbol at its top that binds more loosely than the
rank. -/
def Ranked : Nat → List Tree → Tree → Prop
  | 0, l, t => l = [t] ∧ t.isOperand = true
  | 1, l, t => Stepped l t
  | r + 2, l, t => if r < 8 then Tiered (Tier.all.reverse.drop (7 - r)) l t else Assigned l t

namespace Ranked

variable {r r' : Nat} {l m : List Tree} {t a b : Tree} {p : Location} {s : String} {f : Fixity}

lemma succ (h : Ranked r l t) : Ranked (r + 1) l t := by
  match r, h with
  | 0, ⟨heq, ht⟩ => exact heq ▸ Stepped.operand ht
  | 1, h => exact Tiered.signed (Signed.stepped h)
  | r + 2, h =>
    by_cases hr : r < 8
    · have h : Tiered (Tier.all.reverse.drop (7 - r)) l t := by simpa [Ranked, hr] using h
      by_cases hr' : r + 1 < 8
      · have hlt : 7 - (r + 1) < Tier.all.reverse.length := by
          simp [Tier.all]
          omega
        have hdrop := List.drop_eq_getElem_cons hlt
        rw [show 7 - (r + 1) + 1 = 7 - r by omega] at hdrop
        show if r + 1 < 8 then _ else _
        rw [if_pos hr', hdrop]
        exact Tiered.tighter h
      · obtain rfl : r = 7 := by omega
        exact Assigned.value h
    · have h : Assigned l t := by simpa [Ranked, hr] using h
      show if r + 1 < 8 then _ else _
      rw [if_neg (by omega)]
      exact h

lemma mono (h : Ranked r l t) (hr : r ≤ r') : Ranked r' l t := by
  induction hr with
  | refl => exact h
  | step _ ih => exact ih.succ

lemma assigned (h : Ranked r l t) (hr : r ≤ 10) : Assigned l t :=
  h.mono hr

lemma step (hs : Operator.isPostfix s f = true) (h : Ranked 0 l t) :
    Ranked 1 (l ++ [.symbol p s f]) (.call t.place (Operator.operation s f) [t]) :=
  Stepped.step hs h.succ

lemma sign (hs : Operator.isUnary s f = true) (h : Ranked 2 l t) :
    Ranked 2 (.symbol p s f :: l) (.call p (Operator.prefixOperation s f) [t]) := by
  cases h with
  | signed h => exact Tiered.signed (Signed.sign hs h)

lemma binary {tier : Tier} (hs : tier.holds s = true) (hl : Ranked tier.rank l a)
    (hm : Ranked (tier.rank - 1) m b) :
    Ranked tier.rank (l ++ .symbol p s f :: m) (.call a.place (Operator.operation s f) [a, b]) := by
  cases tier <;> exact Tiered.binary hs hl hm

lemma assign (hs : Operator.isAssignment s = true) (hl : Ranked 9 l a) (hm : Ranked 10 m b) :
    Ranked 10 (l ++ .symbol p s f :: m) (assignment s a b) :=
  Assigned.assignment hs hl hm

end Ranked

end Reduction

end LineScript
