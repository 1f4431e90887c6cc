import LineScript.Proofs.Reduction.Sweep

/-!
# Sweeps over units

The postfix sweep gives the steps of a unit their operand, and the prefix sweep its prefix
symbols. Both pass from one unit to the next without looking further than the symbol between them,
so that a list of phrases becomes a list of chains (`result_prefixSweep_flatten`).
-/

namespace LineScript

namespace Reduction

open Traced

/-! ### Steps -/

lemma Stepped.isOperand {l : List Tree} {t : Tree} (h : Stepped l t) : t.isOperand = true := by
  cases h with
  | operand h => exact h
  | step => rfl

lemma Stepped.exists_cons {l : List Tree} {t : Tree} (h : Stepped l t) :
    ∃ u m, l = u :: m ∧ u.isOperand = true := by
  induction h with
  | operand h => exact ⟨_, [], rfl, h⟩
  | step hs h ih =>
    obtain ⟨u, m, rfl, hu⟩ := ih
    exact ⟨u, _, rfl, hu⟩

/-- The list begins with no step that follows an operand. -/
def StartsUnstepped (ts : List Tree) : Prop := ∀ t ∈ ts.head?, t.isPostfixSymbol = false

/-- No step follows a tree that is no operand. -/
lemma postfixSweep_cons_of_not_isOperand {t : Tree} (h : t.isOperand = false) (ts : List Tree) :
    postfixSweep (t :: ts) = t :: postfixSweep ts := by
  cases ts with
  | nil => rfl
  | cons u ts => cases u <;> simp [postfixSweep, postfixFrom, h]

lemma postfixSweep_cons_of_isSymbol {t : Tree} (h : t.isSymbol = true) (ts : List Tree) :
    postfixSweep (t :: ts) = t :: postfixSweep ts := by
  have ht : t.isOperand = false := by cases t <;> simp_all [Tree.isSymbol]
  exact postfixSweep_cons_of_not_isOperand ht ts

lemma postfixSweep_append_of_isSymbol {us : List Tree} (h : ∀ u ∈ us, u.isSymbol = true)
    (ts : List Tree) : postfixSweep (us ++ ts) = us ++ postfixSweep ts := by
  induction us with
  | nil => rfl
  | cons u us ih =>
    rw [List.cons_append, postfixSweep_cons_of_isSymbol (h u List.mem_cons_self),
      ih fun v hv => h v (List.mem_cons_of_mem _ hv), List.cons_append]

lemma postfixFrom_of_startsUnstepped {ts : List Tree} (h : StartsUnstepped ts) (t : Tree) :
    postfixFrom t ts = t :: postfixSweep ts := by
  cases ts with
  | nil => rfl
  | cons u ts =>
    have hu : u.isPostfixSymbol = false := h u rfl
    cases u <;> simp_all [postfixFrom, postfixSweep, Tree.isPostfixSymbol]

/-- Steps behind an operand make way for what follows them. -/
lemma Stepped.postfixSweep_append {l : List Tree} {t : Tree} (h : Stepped l t) (ts : List Tree) :
    postfixSweep (l ++ ts) = postfixFrom t ts := by
  induction h generalizing ts with
  | operand => rfl
  | step hs h ih =>
    rw [List.append_assoc, List.singleton_append, ih]
    simp [postfixFrom, hs, h.isOperand]

/-! ### Prefix symbols -/

/-- The call that a prefix symbol makes of its operand. -/
def signed : Tree → Tree → Tree
  | .symbol p s f, t => .call p (Operator.prefixOperation s f) [t]
  | _, t => t

lemma isSymbol_of_isPrefixSymbol {t : Tree} (h : t.isPrefixSymbol = true) : t.isSymbol = true := by
  cases t <;> simp_all [Tree.isPrefixSymbol, Tree.isSymbol]

lemma Signed.exists_signs {l : List Tree} {t : Tree} (h : Signed l t) :
    ∃ signs m u, l = signs ++ m ∧ (∀ v ∈ signs, v.isPrefixSymbol = true) ∧ Stepped m u ∧
      t = signs.foldr signed u := by
  induction h with
  | stepped h => exact ⟨[], _, _, rfl, by simp, h, rfl⟩
  | @sign l t p s f hs h ih =>
    obtain ⟨signs, m, u, rfl, hsigns, hu, rfl⟩ := ih
    refine ⟨.symbol p s f :: signs, m, u, rfl, ?_, hu, rfl⟩
    intro v hv
    rcases List.mem_cons.mp hv with rfl | hv
    · exact hs
    · exact hsigns v hv

/-- A unit begins with a prefix symbol or an operand, and never with a step behind one. -/
lemma Signed.exists_cons {l : List Tree} {t : Tree} (h : Signed l t) :
    ∃ u m, l = u :: m ∧ u.isPostfixSymbol = false := by
  cases h with
  | stepped h =>
    obtain ⟨u, m, rfl, hu⟩ := h.exists_cons
    refine ⟨u, m, rfl, ?_⟩
    cases u <;> simp_all [Tree.isPostfixSymbol]
  | sign hs h => exact ⟨_, _, rfl, Operator.isPostfix_eq_false_of_isUnary hs⟩

lemma Signed.isOperand {l : List Tree} {t : Tree} (h : Signed l t) : t.isOperand = true := by
  cases h with
  | stepped h => exact h.isOperand
  | sign => rfl

/-- The trees passed so far, the nearest first, leave a further operand as it is. -/
def Rests (before : List Tree) : Prop :=
  ∀ p s f before', before = .symbol p s f :: before' → isPrefixAfter before' s f = false

lemma rests_cons_of_isOperand {t : Tree} (h : t.isOperand = true) (before : List Tree) :
    Rests (t :: before) := by
  rintro p s f before' heq
  obtain ⟨rfl, rfl⟩ := List.cons.inj heq
  simp at h

/-- A symbol between two operands is not a prefix symbol of the second one. -/
lemma rests_cons_joint {j : Joint} {t : Tree} (hj : Operator.isJoint j.spelling = true)
    (ht : t.isOperand = true) (before : List Tree) : Rests (j.symbol :: t :: before) := by
  rintro p s f before' heq
  obtain ⟨hsymbol, rfl⟩ := List.cons.inj heq
  simp only [Joint.symbol, Tree.symbol.injEq] at hsymbol
  obtain ⟨-, rfl, rfl⟩ := hsymbol
  by_cases hu : Operator.isUnary j.spelling j.fixity = true
  · simp [isPrefixAfter, Operator.isSign_of_isUnary_of_isJoint hj hu, ht]
  · simp [isPrefixAfter, hu]

lemma absorb_of_rests {before : List Tree} (h : Rests before) (t : Tree) :
    absorb t before = pure (t :: before) := by
  cases before with
  | nil => rfl
  | cons u before =>
    cases u with
    | symbol p s f => simp [absorb, h p s f before rfl]
    | _ => rfl

lemma prefixFrom_append_of_isSymbol {us : List Tree} (h : ∀ u ∈ us, u.isSymbol = true)
    (before ts : List Tree) :
    prefixFrom before (us ++ ts) = prefixFrom (us.reverse ++ before) ts := by
  induction us generalizing before with
  | nil => rfl
  | cons u us ih =>
    rw [List.cons_append, prefixFrom, if_pos (h u List.mem_cons_self),
      ih fun v hv => h v (List.mem_cons_of_mem _ hv)]
    simp

/-- Prefix symbols, the nearest first, take an operand one after the other. -/
lemma result_absorb_append {signs before : List Tree} {t : Tree} (ht : t.isOperand = true)
    (hsigns : ∀ u ∈ signs, u.isPrefixSymbol = true) (hrests : Rests before)
    (hfirst : ∀ u ∈ signs.getLast?, u.isSignSymbol = true →
      before.head?.any Tree.isOperand = false) :
    (absorb t (signs ++ before)).result =
      .ok (signs.foldl (fun t u => signed u t) t :: before) := by
  induction signs generalizing t with
  | nil => rw [List.nil_append, absorb_of_rests hrests]; rfl
  | cons u signs ih =>
    have hu := hsigns u List.mem_cons_self
    cases u with
    | symbol p s f =>
      -- only the first of the prefix symbols can have an operand before it
      have hhead : (Operator.isSign s && (signs ++ before).head?.any Tree.isOperand) = false := by
        cases signs with
        | nil =>
          by_cases hs : Operator.isSign s = true
          · simpa [hs] using hfirst _ rfl hs
          · simp [hs]
        | cons v signs =>
          have hv := hsigns v (by simp)
          cases v <;> simp_all [Tree.isPrefixSymbol]
      have hopens : isPrefixAfter (signs ++ before) s f = true := by
        rw [isPrefixAfter, hhead]
        simpa [Tree.isPrefixSymbol] using hu
      rw [List.cons_append, absorb, if_pos hopens, result_bind_of_ok (result_checkOperand ht),
        result_bind_of_ok (result_step _)]
      apply ih rfl (fun v hv => hsigns v (List.mem_cons_of_mem _ hv))
      intro v hv
      apply hfirst v
      cases signs with
      | nil => simp at hv
      | cons w signs => simpa using hv
    | _ => simp [Tree.isPrefixSymbol] at hu

/-- Both sweeps are done with a unit before they come to what follows it. -/
lemma Signed.result_prefixFrom {l : List Tree} {t : Tree} (h : Signed l t) {before ts : List Tree}
    (hrests : Rests before) (hts : StartsUnstepped ts)
    (hfirst : beginsWithSign l = true → before.head?.any Tree.isOperand = false) :
    (prefixFrom before (postfixSweep (l ++ ts))).result =
      (prefixFrom (t :: before) (postfixSweep ts)).result := by
  obtain ⟨signs, m, u, rfl, hsigns, hu, rfl⟩ := h.exists_signs
  have hsymbols : ∀ v ∈ signs, v.isSymbol = true := fun v hv =>
    isSymbol_of_isPrefixSymbol (hsigns v hv)
  have hoperand : u.isSymbol = false := Tree.isSymbol_eq_false_of_isOperand hu.isOperand
  rw [List.append_assoc, postfixSweep_append_of_isSymbol hsymbols, hu.postfixSweep_append,
    postfixFrom_of_startsUnstepped hts, prefixFrom_append_of_isSymbol hsymbols, prefixFrom]
  simp only [hoperand, Bool.false_eq_true, if_false]
  have habsorb : (absorb u (signs.reverse ++ before)).result =
      .ok (signs.reverse.foldl (fun t u => signed u t) u :: before) := by
    refine result_absorb_append hu.isOperand (fun v hv => hsigns v (List.mem_reverse.mp hv))
      hrests ?_
    intro v hv hsign
    have hhead : signs.head? = some v := by simpa using hv
    exact hfirst (by simp [beginsWithSign, List.head?_append, hhead, hsign])
  rw [result_bind_of_ok habsorb, List.foldl_reverse]

end Reduction

end LineScript
