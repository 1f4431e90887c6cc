import LineScript.Operator
import Mathlib.Tactic.Common

/-!
# The readings of a spelling

A spelling belongs to at most one binary tier, and no binary spelling is an assignment. Only the
two signs are prefix symbols and binary symbols at once, so that a symbol between two operands is
told from a prefix symbol by its neighbours in the case of a sign alone.
-/

namespace LineScript

variable {s : String} {f : Fixity} {tier tier' : Tier}

namespace Tier

lemma mem_spellings_of_holds (h : tier.holds s = true) : s ∈ tier.spellings := by
  simpa [Tier.holds] using h

/-- A spelling belongs to at most one tier. -/
lemma eq_of_holds (h : tier.holds s = true) (h' : tier'.holds s = true) : tier = tier' := by
  have hall : ∀ a b : Tier, ∀ s ∈ a.spellings, b.holds s = true → a = b := by
    intro a b
    cases a <;> cases b <;> decide
  exact hall tier tier' s (mem_spellings_of_holds h) h'

lemma not_isAssignment (h : tier.holds s = true) : Operator.isAssignment s = false := by
  have hall : ∀ a : Tier, ∀ s ∈ a.spellings, Operator.isAssignment s = false := by
    intro a
    cases a <;> decide
  exact hall tier s (mem_spellings_of_holds h)

lemma mem_all (tier : Tier) : tier ∈ Tier.all := by
  cases tier <;> decide

end Tier

namespace Operator

/-- The spelling stands between two operands: it is a binary symbol or an assignment. -/
def isJoint (spelling : String) : Bool :=
  Tier.all.any (·.holds spelling) || isAssignment spelling

/-- The spellings that stand between two operands. -/
def joints : List String :=
  Tier.all.flatMap Tier.spellings ++ assignments.map (·.1)

lemma mem_joints_of_isJoint (h : isJoint s = true) : s ∈ joints := by
  simpa [isJoint, joints, Tier.holds, isAssignment] using h

lemma isJoint_of_holds (h : tier.holds s = true) : isJoint s = true := by
  have hany : Tier.all.any (·.holds s) = true := List.any_eq_true.mpr ⟨tier, tier.mem_all, h⟩
  simp [isJoint, hany]

lemma isJoint_of_isAssignment (h : isAssignment s = true) : isJoint s = true := by
  simp [isJoint, h]

lemma isJoint_iff : isJoint s = true ↔ (∃ tier : Tier, tier.holds s = true) ∨
    isAssignment s = true := by
  constructor
  · intro h
    rcases Bool.or_eq_true _ _ |>.mp h with h | h
    · obtain ⟨tier, -, htier⟩ := List.any_eq_true.mp h
      exact Or.inl ⟨tier, htier⟩
    · exact Or.inr h
  · rintro (⟨tier, h⟩ | h)
    · exact isJoint_of_holds h
    · exact isJoint_of_isAssignment h

lemma isKnown_of_isJoint (h : isJoint s = true) : isKnown s = true := by
  have hall : ∀ s ∈ joints, isKnown s = true := by decide
  exact hall s (mem_joints_of_isJoint h)

/-- Of the symbols that stand between operands only the signs may precede one. -/
lemma isSign_of_isUnary_of_isJoint (hj : isJoint s = true) (hu : isUnary s f = true) :
    isSign s = true := by
  have hall : ∀ s ∈ joints, (isSign s || s == "!" || isStep s) = true → isSign s = true := by
    decide
  apply hall s (mem_joints_of_isJoint hj)
  simp only [isUnary, Bool.or_eq_true, Bool.and_eq_true] at hu ⊢
  rcases hu with (h | h) | ⟨h, -⟩
  · exact Or.inl (Or.inl h)
  · exact Or.inl (Or.inr h)
  · exact Or.inr h

lemma isUnary_eq_false_of_isJoint (hj : isJoint s = true) (hsign : isSign s = false) :
    isUnary s f = false := by
  by_contra hunary
  rw [isSign_of_isUnary_of_isJoint hj (by simpa using hunary)] at hsign
  cases hsign

lemma isPostfix_eq_false_of_isJoint (h : isJoint s = true) : isPostfix s f = false := by
  have hall : ∀ s ∈ joints, isStep s = false := by decide
  simp [isPostfix, hall s (mem_joints_of_isJoint h)]

/-- A step that follows its operand precedes none. -/
lemma isPostfix_eq_false_of_isUnary (h : isUnary s f = true) : isPostfix s f = false := by
  by_contra hp
  simp only [isPostfix, Bool.and_eq_false_imp, not_forall, Bool.not_eq_false] at hp
  obtain ⟨hstep, hf⟩ := hp
  obtain rfl : f = .after := by simpa using hf
  have hall : ∀ s ∈ stepOperations.map (·.1), isUnary s .after = false := by decide
  rw [hall s (by simpa [isStep] using hstep)] at h
  exact Bool.false_ne_true h

lemma isKnown_of_isStep (h : isStep s = true) : isKnown s = true := by
  have hall : ∀ s ∈ stepOperations.map (·.1), isKnown s = true := by decide
  exact hall s (by simpa [isStep] using h)

lemma isKnown_of_isPostfix (h : isPostfix s f = true) : isKnown s = true := by
  simp only [isPostfix, Bool.and_eq_true] at h
  exact isKnown_of_isStep h.1

lemma isKnown_of_isSign (h : isSign s = true) : isKnown s = true := by
  simp only [isSign, Bool.or_eq_true, beq_iff_eq] at h
  rcases h with rfl | rfl <;> decide

lemma isKnown_of_isUnary (h : isUnary s f = true) : isKnown s = true := by
  simp only [isUnary, Bool.or_eq_true, Bool.and_eq_true, beq_iff_eq] at h
  rcases h with (h | rfl) | ⟨h, -⟩
  · exact isKnown_of_isSign h
  · decide
  · exact isKnown_of_isStep h

/-- What an assignment has in front of its equals sign: the operator of a compound one, and nothing
in the plain one. -/
def withoutEquals (spelling : String) : String :=
  String.ofList spelling.toList.dropLast

/-- A compound assignment applies the operation that its operator has between two operands. -/
lemma compound?_eq (h : isAssignment s = true) :
    compound? s = if s = "=" then none else some (operation (withoutEquals s) .between) := by
  have hall : ∀ s ∈ assignments.map (·.1), compound? s =
      if s = "=" then none else some (operation (withoutEquals s) .between) := by decide
  exact hall s (by simpa [isAssignment] using h)

/-- Only an assignment is compound. -/
lemma compound?_of_not_isAssignment (h : isAssignment s = false) : compound? s = none := by
  have hlookup : assignments.lookup s = none := by
    rw [List.lookup_eq_none_iff]
    intro a ha
    simp only [isAssignment, List.contains_eq_mem, List.mem_map, decide_eq_false_iff_not,
      not_exists, not_and] at h
    simpa using fun heq => h a ha heq.symm
  rw [compound?, hlookup]
  rfl

end Operator

end LineScript
