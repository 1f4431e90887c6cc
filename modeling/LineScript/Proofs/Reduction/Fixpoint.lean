import LineScript.Proofs.Reduction.Turns

/-!
# One sweep is enough

A sweep leaves nothing behind that it could still treat, although it looks at a position again after
a call and the prefix sweep even steps back: whatever has been passed can only be treated once
something new stands beside it. For each sweep the lists that it leaves as they are come first, then
that it leaves such a list.
-/

namespace LineScript

namespace Reduction

open Traced

variable {t u : Tree} {ts us before after : List Tree} {p : Location} {s : String} {f : Fixity}

/-! ### Steps behind their operand -/

/-- A tree is a step that takes the one before it as its operand. -/
def isStepOn (t : Tree) : Tree → Bool
  | .symbol _ s f => Operator.isPostfix s f && t.isOperand
  | _ => false

/-- No step has its operand before it. -/
def IsUnstepped (ts : List Tree) : Prop := ts.IsChain fun t u => isStepOn t u = false

lemma isStepOn_of_not_isSymbol (t : Tree) (hu : u.isSymbol = false) : isStepOn t u = false := by
  cases u with
  | symbol => cases hu
  | _ => rfl

/-- The sweep from a tree on begins with this tree or with a call. -/
lemma postfixFrom_eq_cons (t : Tree) (ts : List Tree) :
    ∃ v vs, postfixFrom t ts = v :: vs ∧ (v = t ∨ v.isSymbol = false) := by
  fun_induction postfixFrom t ts with
  | case1 t => exact ⟨t, [], rfl, .inl rfl⟩
  | case2 t p s f ts h ih =>
    obtain ⟨v, vs, heq, hv⟩ := ih
    refine ⟨v, vs, heq, .inr ?_⟩
    obtain rfl | hv := hv
    · rfl
    · exact hv
  | case3 t | case4 t => exact ⟨t, _, rfl, .inl rfl⟩

lemma isUnstepped_cons (h : isStepOn t u = false) (hrest : IsUnstepped (postfixFrom u ts)) :
    IsUnstepped (t :: postfixFrom u ts) := by
  obtain ⟨v, vs, heq, hv⟩ := postfixFrom_eq_cons u ts
  rw [heq] at hrest ⊢
  refine List.isChain_cons_cons.mpr ⟨?_, hrest⟩
  obtain rfl | hv := hv
  · exact h
  · exact isStepOn_of_not_isSymbol t hv

lemma isUnstepped_postfixFrom (t : Tree) (ts : List Tree) : IsUnstepped (postfixFrom t ts) := by
  fun_induction postfixFrom t ts with
  | case1 t => exact .singleton t
  | case2 t p s f ts h ih => exact ih
  | case3 t p s f ts h ih => exact isUnstepped_cons (by simpa [isStepOn] using h) ih
  | case4 t u ts hu ih =>
    exact isUnstepped_cons (isStepOn_of_not_isSymbol t (Tree.isSymbol_eq_false_of_ne hu)) ih

lemma isUnstepped_postfixSweep (ts : List Tree) : IsUnstepped (postfixSweep ts) := by
  cases ts with
  | nil => exact .nil
  | cons t ts => exact isUnstepped_postfixFrom t ts

lemma postfixSweep_of_isUnstepped (h : IsUnstepped ts) : postfixSweep ts = ts := by
  cases ts with
  | nil => rfl
  | cons t ts =>
    rw [postfixSweep]
    induction ts generalizing t with
    | nil => rfl
    | cons u ts ih =>
      obtain ⟨hu, hts⟩ := List.isChain_cons_cons.mp h
      cases u with
      | symbol p s f =>
        have hpass : ¬(Operator.isPostfix s f && t.isOperand) = true := by
          simpa [isStepOn] using hu
        rw [postfixFrom, if_neg hpass, ih _ hts]
      | _ => exact congrArg (t :: ·) (ih _ hts)

/-! ### Prefix symbols -/

/-- Of the trees passed so far, given nearest first, no symbol takes the tree behind it. -/
def IsPassed (before : List Tree) : Prop :=
  ∀ u p s f l, u :: .symbol p s f :: l <:+ before → u.isSymbol = true ∨ isPrefixAfter l s f = false

lemma IsPassed.of_suffix (h : IsPassed before) (hafter : after <:+ before) : IsPassed after :=
  fun u p s f l hl => h u p s f l (hl.trans hafter)

lemma isPassed_nil : IsPassed [] := by
  intro u p s f l hl
  cases List.suffix_nil.mp hl

/-- Only the tree that is passed next can be one that a symbol takes. -/
lemma isPassed_cons_iff : IsPassed (t :: before) ↔ IsPassed before ∧
    ∀ p s f l, before = .symbol p s f :: l → t.isSymbol = true ∨ isPrefixAfter l s f = false := by
  constructor
  · intro h
    refine ⟨h.of_suffix (List.suffix_cons t before), ?_⟩
    rintro p s f l rfl
    exact h t p s f l List.suffix_rfl
  · rintro ⟨hbefore, ht⟩ u p s f l hl
    rcases List.suffix_cons_iff.mp hl with heq | hl
    · obtain ⟨rfl, rfl⟩ := List.cons.inj heq
      exact ht p s f l rfl
    · exact hbefore u p s f l hl

/-- What is put behind the trees that were passed has gone to all symbols that take it. -/
lemma IsPassed.absorb (h : IsPassed before) (hafter : (absorb t before).result = .ok after) :
    IsPassed after := by
  fun_induction Reduction.absorb t before with
  | case1 t p s f before hopens ih =>
    obtain ⟨⟨⟩, -, hafter⟩ := result_bind_eq_ok_iff.mp hafter
    obtain ⟨⟨⟩, -, hafter⟩ := result_bind_eq_ok_iff.mp hafter
    exact ih (h.of_suffix (List.suffix_cons _ before)) hafter
  | case2 t p s f before hcloses =>
    obtain rfl : t :: .symbol p s f :: before = after := Except.ok.inj hafter
    refine isPassed_cons_iff.mpr ⟨h, ?_⟩
    rintro _ _ _ _ ⟨⟩
    exact .inr (Bool.eq_false_iff.mpr hcloses)
  | case3 t before hbefore =>
    obtain rfl : t :: before = after := Except.ok.inj hafter
    refine isPassed_cons_iff.mpr ⟨h, ?_⟩
    intro p s f l hsymbol
    exact absurd hsymbol (hbefore p s f l)

lemma isPassed_prefixFrom (h : IsPassed before) (hus : (prefixFrom before ts).result = .ok us) :
    IsPassed us.reverse := by
  fun_induction prefixFrom before ts with
  | case1 before =>
    obtain rfl : before.reverse = us := Except.ok.inj hus
    rwa [List.reverse_reverse]
  | case2 before t ts ht ih =>
    apply ih _ hus
    exact isPassed_cons_iff.mpr ⟨h, fun _ _ _ _ _ => .inl ht⟩
  | case3 before t ts ht ih =>
    obtain ⟨after, hafter, hus⟩ := result_bind_eq_ok_iff.mp hus
    exact ih after (h.absorb hafter) hus

lemma isPassed_prefixSweep (hus : (prefixSweep ts).result = .ok us) : IsPassed us.reverse :=
  isPassed_prefixFrom isPassed_nil hus

/-- A tree that no symbol before it takes is put behind them. -/
lemma absorb_of_isPassed (h : IsPassed (t :: before)) (ht : t.isSymbol = false) :
    absorb t before = pure (t :: before) := by
  fun_cases absorb t before with
  | case1 p s f before hopens =>
    obtain hsymbol | hcloses := (isPassed_cons_iff.mp h).2 p s f before rfl
    · rw [ht] at hsymbol
      cases hsymbol
    · rw [hopens] at hcloses
      cases hcloses
  | case2 | case3 => rfl

lemma prefixFrom_of_isPassed (h : IsPassed (ts.reverse ++ before)) :
    prefixFrom before ts = pure (before.reverse ++ ts) := by
  induction ts generalizing before with
  | nil => rw [prefixFrom, List.append_nil]
  | cons t ts ih =>
    rw [InPlace.reverse_cons_append] at h
    have hrest := ih h
    rw [InPlace.reverse_cons_append] at hrest
    rw [prefixFrom]
    split_ifs with ht
    · exact hrest
    · have hpassed : IsPassed (t :: before) := h.of_suffix (List.suffix_append _ _)
      rw [absorb_of_isPassed hpassed (Bool.eq_false_iff.mpr ht), bind_of_pure]
      exact hrest

lemma prefixSweep_of_isPassed (h : IsPassed us.reverse) : prefixSweep us = pure us :=
  prefixFrom_of_isPassed (by rwa [List.append_nil])

/-- Why a prefix symbol was passed: it is the last tree, a symbol stands behind it, or it is a sign
with an operand before it. -/
lemma IsPassed.reason {l r : List Tree} (h : IsPassed (l ++ .symbol p s f :: r).reverse)
    (hs : Operator.isUnary s f = true) :
    r = [] ∨ (∃ u ∈ r.head?, u.isSymbol = true) ∨
      (Operator.isSign s = true ∧ ∃ t ∈ l.getLast?, t.isOperand = true) := by
  cases r with
  | nil => exact .inl rfl
  | cons u r =>
    have hsuffix : u :: .symbol p s f :: l.reverse <:+ (l ++ .symbol p s f :: u :: r).reverse := by
      simp
    obtain hu | hcloses := h u p s f l.reverse hsuffix
    · exact .inr (.inl ⟨u, rfl, hu⟩)
    · refine .inr (.inr ?_)
      simpa [isPrefixAfter, hs, Option.any_eq_true] using hcloses

/-! ### Symbols between two operands -/

/-- A tree is a symbol of some kind. -/
def isSymbolOf (kind : String → Bool) : Tree → Bool
  | .symbol _ s _ => kind s
  | _ => false

/-- No symbol of a kind is among the trees. -/
def Lacks (kind : String → Bool) (ts : List Tree) : Prop := ∀ t ∈ ts, isSymbolOf kind t = false

variable {kind : String → Bool} {tier : Tier}

lemma lacks_nil : Lacks kind [] := List.forall_mem_nil _

lemma lacks_cons_iff : Lacks kind (t :: ts) ↔ isSymbolOf kind t = false ∧ Lacks kind ts :=
  List.forall_mem_cons

lemma isSymbolOf_of_not_isSymbol (ht : t.isSymbol = false) : isSymbolOf kind t = false := by
  cases t with
  | symbol => cases ht
  | _ => rfl

/-- What stands in the place of a tree that is no symbol of the kind is this tree or a call. -/
lemma lacks_cons_of_head (hu : isSymbolOf kind u = false) (ht : t = u ∨ t.isSymbol = false)
    (hts : Lacks kind ts) : Lacks kind (t :: ts) := by
  refine lacks_cons_iff.mpr ⟨?_, hts⟩
  obtain rfl | ht := ht
  · exact hu
  · exact isSymbolOf_of_not_isSymbol ht

/-- The sweep of a tier leaves the tree that it began with or a call, and behind it no symbol of the
tier. -/
lemma binaryFrom_eq_cons (h : (binaryFrom tier t ts).result = .ok us) :
    ∃ v vs, us = v :: vs ∧ (v = t ∨ v.isSymbol = false) ∧ Lacks tier.holds vs := by
  fun_induction binaryFrom tier t ts generalizing us with
  | case1 t =>
    obtain rfl : [t] = us := Except.ok.inj h
    exact ⟨t, [], rfl, .inl rfl, lacks_nil⟩
  | case2 => exact absurd h result_complain_ne_ok
  | case3 t p s f hs right ts ih =>
    obtain ⟨⟨⟩, -, h⟩ := result_bind_eq_ok_iff.mp h
    obtain ⟨⟨⟩, -, h⟩ := result_bind_eq_ok_iff.mp h
    obtain ⟨⟨⟩, -, h⟩ := result_bind_eq_ok_iff.mp h
    obtain ⟨v, vs, rfl, hv, hvs⟩ := ih h
    refine ⟨v, vs, rfl, .inr ?_, hvs⟩
    obtain rfl | hv := hv
    · rfl
    · exact hv
  | case4 t p s f ts hs ih =>
    obtain ⟨vs, hvs, h⟩ := result_bind_eq_ok_iff.mp h
    obtain rfl : t :: vs = us := Except.ok.inj h
    obtain ⟨v, vs, rfl, hv, hlacks⟩ := ih hvs
    have hother : isSymbolOf tier.holds (.symbol p s f) = false := Bool.eq_false_iff.mpr hs
    exact ⟨t, v :: vs, rfl, .inl rfl, lacks_cons_of_head hother hv hlacks⟩
  | case5 t u ts hu ih =>
    obtain ⟨vs, hvs, h⟩ := result_bind_eq_ok_iff.mp h
    obtain rfl : t :: vs = us := Except.ok.inj h
    obtain ⟨v, vs, rfl, hv, hlacks⟩ := ih hvs
    have husymbol : u.isSymbol = false := Tree.isSymbol_eq_false_of_ne hu
    exact ⟨t, v :: vs, rfl, .inl rfl,
      lacks_cons_of_head (isSymbolOf_of_not_isSymbol husymbol) hv hlacks⟩

lemma lacks_tail_binarySweep (h : (binarySweep tier ts).result = .ok us) :
    Lacks tier.holds us.tail := by
  cases ts with
  | nil =>
    obtain rfl : [] = us := Except.ok.inj h
    exact lacks_nil
  | cons t ts =>
    obtain ⟨v, vs, rfl, -, hlacks⟩ := binaryFrom_eq_cons h
    exact hlacks

lemma binarySweep_of_lacks_tail (h : Lacks tier.holds us.tail) : binarySweep tier us = pure us := by
  cases us with
  | nil => rfl
  | cons t us =>
    rw [binarySweep]
    induction us generalizing t with
    | nil => rfl
    | cons u us ih =>
      obtain ⟨hu, hus⟩ := lacks_cons_iff.mp h
      have hrest := ih u hus
      cases u with
      | symbol p s f =>
        rw [binaryFrom_of_not_holds (Bool.eq_false_iff.mp hu), hrest]
        rfl
      | _ =>
        rw [binaryFrom_of_not_isSymbol rfl, hrest]
        rfl

/-! ### Assignments -/

lemma lacks_tail_assign (h : Lacks Operator.isAssignment ts.tail)
    (hus : (assign t ts).result = .ok us) : Lacks Operator.isAssignment us.tail := by
  revert hus
  fun_cases assign t ts with
  | case1 => exact fun hus => absurd hus result_complain_ne_ok
  | case2 p s f hs value ts =>
    intro hus
    obtain ⟨⟨⟩, -, hus⟩ := result_bind_eq_ok_iff.mp hus
    obtain ⟨⟨⟩, -, hus⟩ := result_bind_eq_ok_iff.mp hus
    obtain ⟨⟨⟩, -, hus⟩ := result_bind_eq_ok_iff.mp hus
    obtain rfl := Except.ok.inj hus
    exact (lacks_cons_iff.mp h).2
  | case3 p s f ts hs =>
    rintro ⟨⟩
    exact lacks_cons_iff.mpr ⟨Bool.eq_false_iff.mpr hs, h⟩
  | case4 _ hts =>
    rintro ⟨⟩
    cases ts with
    | nil => exact lacks_nil
    | cons u ts =>
      have hu : u.isSymbol = false :=
        Tree.isSymbol_eq_false_of_ne fun p s f heq => hts p s f ts (congrArg (· :: ts) heq)
      exact lacks_cons_iff.mpr ⟨isSymbolOf_of_not_isSymbol hu, h⟩

lemma lacks_tail_assignmentSweep (h : (assignmentSweep ts).result = .ok us) :
    Lacks Operator.isAssignment us.tail := by
  induction ts generalizing us with
  | nil =>
    obtain rfl : [] = us := Except.ok.inj h
    exact lacks_nil
  | cons t ts ih =>
    obtain ⟨vs, hvs, h⟩ := result_bind_eq_ok_iff.mp h
    exact lacks_tail_assign (ih hvs) h

lemma assign_of_lacks (t : Tree) (h : Lacks Operator.isAssignment ts) :
    assign t ts = pure (t :: ts) := by
  fun_cases assign t ts with
  | case1 p s f hs => exact absurd hs (Bool.eq_false_iff.mp (lacks_cons_iff.mp h).1)
  | case2 p s f hs => exact absurd hs (Bool.eq_false_iff.mp (lacks_cons_iff.mp h).1)
  | case3 | case4 => rfl

lemma assignmentSweep_of_lacks_tail (h : Lacks Operator.isAssignment us.tail) :
    assignmentSweep us = pure us := by
  induction us with
  | nil => rfl
  | cons t us ih =>
    have htail : Lacks Operator.isAssignment us.tail := fun u hu => h u (List.mem_of_mem_tail hu)
    rw [assignmentSweep, ih htail, bind_of_pure]
    exact assign_of_lacks t h

/-! ### All sweeps -/

open InPlace

/-- What a sweep has left, it leaves as it is. -/
lemma Sweep.run_of_result (sweep : Sweep) (h : (sweep.run ts).result = .ok us) :
    sweep.run us = pure us := by
  cases sweep with
  | behind =>
    obtain rfl : postfixSweep ts = us := Except.ok.inj h
    exact congrArg pure (postfixSweep_of_isUnstepped (isUnstepped_postfixSweep ts))
  | before => exact prefixSweep_of_isPassed (isPassed_prefixSweep h)
  | binary tier => exact binarySweep_of_lacks_tail (lacks_tail_binarySweep h)
  | assignment => exact assignmentSweep_of_lacks_tail (lacks_tail_assignmentSweep h)

/-- One sweep is enough. The loop of a sweep is over within a number of turns told by the length of
its list; if it leaves a list, then running it once more takes no step, fails nowhere and leaves the
same list. What the prefix sweep leaves has a prefix symbol only at its end, before a symbol, or,
if the symbol is a sign, behind an operand. -/
theorem sweep_reaches_fixpoint (sweep : Sweep) (ts : List Tree) :
    (∀ n, 2 * ts.length < n →
      turns sweep.turn n ts (sweep.start ts) = sweep.run ts >>= fun us => pure (some us)) ∧
    ∀ us, (sweep.run ts).result = .ok us →
      sweep.run us = pure us ∧
      (∀ n, 2 * us.length < n → turns sweep.turn n us (sweep.start us) = pure (some us)) ∧
      (sweep = .before → ∀ l p s f r, us = l ++ .symbol p s f :: r →
        Operator.isUnary s f = true →
          r = [] ∨ (∃ u ∈ r.head?, u.isSymbol = true) ∨
            (Operator.isSign s = true ∧ ∃ t ∈ l.getLast?, t.isOperand = true)) := by
  refine ⟨fun n hn => turns_eq_run sweep hn, fun us hus => ?_⟩
  have hagain := sweep.run_of_result hus
  refine ⟨hagain, fun n hn => ?_, ?_⟩
  · rw [turns_eq_run sweep hn, hagain, bind_of_pure]
  · rintro rfl l p s f r rfl hs
    exact (isPassed_prefixSweep hus).reason hs

/-- In `- ! 1 - 2` the sweep steps back from `!` to the first sign, and it leaves the second one,
which stands behind an operand. -/
theorem prefixSweep_reaches_fixpoint_behind_operand :
    let place (column : Int) : Location := ⟨"f.ms", 1, column⟩
    let ts : List Tree := [.symbol (place 1) "-" .before, .symbol (place 3) "!" .before,
      .literal (place 5) (.int 1), .symbol (place 7) "-" .between, .literal (place 9) (.int 2)]
    let negated : Tree :=
      .call (place 1) "neg" [.call (place 3) "not" [.literal (place 5) (.int 1)]]
    let r : List Tree := [.literal (place 9) (.int 2)]
    let us : List Tree := [negated] ++ .symbol (place 7) "-" .between :: r
    (2 * ts.length < 11 ∧ turns Sweep.before.turn 11 ts (Sweep.before.start ts) =
      Sweep.before.run ts >>= fun us => pure (some us)) ∧
    (Sweep.before.run ts).result = .ok us ∧
    Sweep.before.run us = pure us ∧
    (2 * us.length < 7 ∧ turns Sweep.before.turn 7 us (Sweep.before.start us) = pure (some us)) ∧
    Operator.isUnary "-" .between = true ∧
    (r = [] ∨ (∃ u ∈ r.head?, u.isSymbol = true) ∨
      (Operator.isSign "-" = true ∧ ∃ t ∈ [negated].getLast?, t.isOperand = true)) := by
  intro place ts negated r us
  have hturns : 2 * ts.length < 11 := by decide
  have hagain : 2 * us.length < 7 := by decide
  have hrun : (Sweep.before.run ts).result = .ok us := rfl
  have hsign : Operator.isUnary "-" .between = true := by decide
  obtain ⟨hends, hfixed⟩ := sweep_reaches_fixpoint .before ts
  obtain ⟨hsame, hstays, hleft⟩ := hfixed us hrun
  exact ⟨⟨hturns, hends 11 hturns⟩, hrun, hsame, ⟨hagain, hstays 7 hagain⟩, hsign,
    hleft rfl [negated] (place 7) "-" .between r rfl hsign⟩

end Reduction

end LineScript
