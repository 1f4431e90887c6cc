import LineScript.Proofs.Reduction.Unit

/-!
# Phrases are reduced to their trees

A derivation of the grammar is followed by the sweeps: a phrase becomes the chain of its units,
every tier collapses what the derivation joins by its symbols, and the assignments do the rest.
Several phrases are reduced side by side, unless one of them begins with a sign that the operand
before it turns into a binary symbol.
-/

namespace LineScript

namespace Reduction

open Traced

/-! ### The chain of a phrase -/

/-- The list spells the units of a chain, with the joints between them. -/
inductive Strung : List Tree → Chain → Prop where
  | unit {l : List Tree} {t : Tree} (h : Signed l t) : Strung l ⟨t, []⟩
  | joined {l m : List Tree} {t : Tree} {j : Joint} {c : Chain} (hl : Signed l t)
      (hj : Operator.isJoint j.spelling = true) (hm : Strung m c) :
      Strung (l ++ j.symbol :: m) ⟨t, (j, c.head) :: c.links⟩

lemma Strung.isSound {l : List Tree} {c : Chain} (h : Strung l c) : c.IsSound := by
  induction h with
  | unit h => exact ⟨h.isOperand, by simp⟩
  | joined hl hj hm ih =>
    refine ⟨hl.isOperand, ?_⟩
    intro x hx
    rcases List.mem_cons.mp hx with rfl | hx
    · exact ih.head
    · exact ih.links x hx

lemma Strung.exists_cons {l : List Tree} {c : Chain} (h : Strung l c) :
    ∃ u m, l = u :: m ∧ u.isPostfixSymbol = false := by
  cases h with
  | unit h => exact h.exists_cons
  | joined hl =>
    obtain ⟨u, m, rfl, hu⟩ := hl.exists_cons
    exact ⟨u, _, rfl, hu⟩

lemma Strung.append {l m : List Tree} {c c' : Chain} {j : Joint} (h : Strung l c)
    (hj : Operator.isJoint j.spelling = true) (hm : Strung m c') :
    Strung (l ++ j.symbol :: m) (c.join j c') := by
  induction h with
  | unit h => exact .joined h hj hm
  | joined hl hi hn ih =>
    rw [List.append_assoc, List.cons_append]
    exact .joined hl hi ih

/-- A derivation over some tiers is what their sweeps make of its chain. -/
lemma Tiered.exists_chain {tiers : List Tier} (hnodup : tiers.Nodup) {l : List Tree} {t : Tree}
    (h : Tiered tiers l t) : ∃ c, Strung l c ∧ c.collapseAll tiers = ⟨t, []⟩ := by
  induction h with
  | signed h => exact ⟨_, .unit h, rfl⟩
  | tighter h ih =>
    obtain ⟨c, hc, heq⟩ := ih (List.nodup_cons.mp hnodup).2
    refine ⟨c, hc, ?_⟩
    simp only [Chain.collapseAll, List.foldr_cons] at heq ⊢
    rw [heq]
    rfl
  | @binary tier tiers l m a b p s f hs hl hm ihl ihm =>
    obtain ⟨hmem, htiers⟩ := List.nodup_cons.mp hnodup
    obtain ⟨c, hc, heq⟩ := ihl hnodup
    obtain ⟨c', hc', heq'⟩ := ihm htiers
    have hothers : ∀ tier' ∈ tiers, tier'.holds s = false := by
      intro tier' htier'
      by_contra hholds
      obtain rfl := Tier.eq_of_holds hs (by simpa using hholds)
      exact hmem htier'
    refine ⟨c.join ⟨p, s, f⟩ c', hc.append (j := ⟨p, s, f⟩) (Operator.isJoint_of_holds hs) hc', ?_⟩
    simp only [Chain.collapseAll, List.foldr_cons] at heq ⊢
    have hjoin := Chain.collapseAll_join (j := ⟨p, s, f⟩) hothers c c'
    rw [heq'] at hjoin
    simp only [Chain.collapseAll] at hjoin
    rw [hjoin]
    exact Chain.collapse_join_of_holds hs heq b

/-- An assignment joins the chain of its target to that of its value. -/
lemma Tiered.exists_chain_assignment {l m : List Tree} {a : Tree} {p : Location} {s : String}
    {f : Fixity} {c' : Chain} (hs : Operator.isAssignment s = true)
    (hl : Tiered Tier.all.reverse l a) (hc' : Strung m c')
    (hassign : (c'.collapseAll Tier.all.reverse).IsAssignment) :
    ∃ c, Strung (l ++ .symbol p s f :: m) c ∧ (c.collapseAll Tier.all.reverse).IsAssignment ∧
      c.tree = assignment s a c'.tree := by
  obtain ⟨c, hc, heq⟩ := hl.exists_chain (by decide)
  have hothers : ∀ tier ∈ Tier.all.reverse, tier.holds s = false := by
    intro tier _
    by_contra hholds
    rw [Tier.not_isAssignment (by simpa using hholds)] at hs
    exact Bool.false_ne_true hs
  have hjoin := Chain.collapseAll_join (j := ⟨p, s, f⟩) hothers c c'
  rw [heq] at hjoin
  refine ⟨c.join ⟨p, s, f⟩ c', ?_, ?_, ?_⟩
  · exact hc.append (j := ⟨p, s, f⟩) (Operator.isJoint_of_isAssignment hs) hc'
  · rw [hjoin]
    intro x hx
    rcases List.mem_cons.mp hx with rfl | hx
    · exact hs
    · exact hassign x hx
  · rw [Chain.tree, hjoin]
    rfl

/-- A derivation is what the sweeps of all tiers and of assignments make of its chain. -/
lemma Assigned.exists_chain {l : List Tree} {t : Tree} (h : Assigned l t) :
    ∃ c, Strung l c ∧ (c.collapseAll Tier.all.reverse).IsAssignment ∧ c.tree = t := by
  induction h with
  | value h =>
    obtain ⟨c, hc, heq⟩ := h.exists_chain (by decide)
    refine ⟨c, hc, ?_, ?_⟩
    · rw [heq]
      intro x hx
      simp at hx
    · rw [Chain.tree, heq]
      rfl
  | assign hl hm ih =>
    obtain ⟨c', hc', hassign, rfl⟩ := ih
    exact hl.exists_chain_assignment rfl hc' hassign
  | compound hs hcompound hl hm ih =>
    obtain ⟨c', hc', hassign, rfl⟩ := ih
    obtain ⟨c, hc, hchain, htree⟩ := hl.exists_chain_assignment hs hc' hassign
    rw [assignment_eq hs, if_neg hcompound] at htree
    exact ⟨c, hc, hchain, htree⟩

lemma Assigned.isOperand {l : List Tree} {t : Tree} (h : Assigned l t) : t.isOperand = true := by
  obtain ⟨c, hc, -, rfl⟩ := h.exists_chain
  exact Chain.isOperand_tree hc.isSound

/-! ### Steps and prefix symbols of a phrase -/

lemma startsUnstepped_cons_joint {j : Joint} (hj : Operator.isJoint j.spelling = true)
    (ts : List Tree) : StartsUnstepped (j.symbol :: ts) := by
  intro t ht
  obtain rfl : j.symbol = t := by simpa using ht
  exact Operator.isPostfix_eq_false_of_isJoint hj

/-- The trees of a chain, the last one first, leave a further operand as it is. -/
lemma Chain.IsSound.rests {c : Chain} (h : c.IsSound) (before : List Tree) :
    Rests (c.siblings.reverse ++ before) := by
  obtain ⟨t, links⟩ := c
  rcases List.eq_nil_or_concat links with rfl | ⟨links, ⟨j, u⟩, rfl⟩
  · exact rests_cons_of_isOperand h.head before
  · have hu : u.isOperand = true := h.links (j, u) (by simp)
    have hlast : (Chain.siblings ⟨t, links.concat (j, u)⟩).reverse =
        u :: j.symbol :: (Chain.siblings ⟨t, links⟩).reverse := by
      simp [Chain.siblings, Chain.strung_append, Chain.strung]
    rw [hlast]
    exact rests_cons_of_isOperand hu _

/-- The two sweeps make a phrase its chain before they come to what follows it. -/
lemma Strung.result_prefixFrom {l : List Tree} {c : Chain} (h : Strung l c)
    {before ts : List Tree} (hrests : Rests before) (hts : StartsUnstepped ts)
    (hfirst : beginsWithSign l = true → before.head?.any Tree.isOperand = false) :
    (prefixFrom before (postfixSweep (l ++ ts))).result =
      (prefixFrom (c.siblings.reverse ++ before) (postfixSweep ts)).result := by
  induction h generalizing before with
  | unit h => simpa [Chain.siblings, Chain.strung] using h.result_prefixFrom hrests hts hfirst
  | @joined l m t j c hl hj hm ih =>
    have hbegins : beginsWithSign (l ++ j.symbol :: m) = beginsWithSign l := by
      obtain ⟨u, m', rfl, -⟩ := hl.exists_cons
      rfl
    rw [hbegins] at hfirst
    have hjoint : j.symbol.isSymbol = true := rfl
    rw [List.append_assoc, List.cons_append,
      hl.result_prefixFrom hrests (startsUnstepped_cons_joint hj _) hfirst,
      postfixSweep_cons_of_isSymbol hjoint, prefixFrom, if_pos hjoint,
      ih (rests_cons_joint hj hl.isOperand before) (fun _ => rfl)]
    simp [Chain.siblings, Chain.strung]

/-! ### Several phrases -/

lemma startsUnstepped_flatten {phrases : List (List Tree)} {cs : List Chain}
    (h : List.Forall₂ Strung phrases cs) : StartsUnstepped phrases.flatten := by
  intro t ht
  cases h with
  | nil => simp at ht
  | cons hl =>
    obtain ⟨u, m, rfl, hu⟩ := hl.exists_cons
    obtain rfl : u = t := by simpa using ht
    exact hu

lemma result_prefixFrom_flatten {phrases : List (List Tree)} {cs : List Chain}
    (h : List.Forall₂ Strung phrases cs)
    (hunsigned : ∀ l ∈ phrases, beginsWithSign l = false) {before : List Tree}
    (hrests : Rests before) :
    (prefixFrom before (postfixSweep phrases.flatten)).result =
      .ok (before.reverse ++ siblingsOf cs) := by
  induction h generalizing before with
  | nil => simp [postfixSweep, prefixFrom, siblingsOf]
  | @cons l c phrases cs hl h ih =>
    have hl' : beginsWithSign l = false := hunsigned l List.mem_cons_self
    rw [List.flatten_cons, hl.result_prefixFrom hrests (startsUnstepped_flatten h)
      (fun hl'' => absurd hl'' (by simp [hl'])),
      ih (fun m hm => hunsigned m (List.mem_cons_of_mem _ hm)) (hl.isSound.rests before)]
    simp [siblingsOf]

lemma result_prefixSweep_flatten {phrases : List (List Tree)} {cs : List Chain}
    (h : List.Forall₂ Strung phrases cs)
    (hunsigned : ∀ l ∈ phrases.tail, beginsWithSign l = false) :
    (prefixSweep (postfixSweep phrases.flatten)).result = .ok (siblingsOf cs) := by
  cases h with
  | nil => rfl
  | @cons l c phrases cs hl h =>
    rw [prefixSweep, List.flatten_cons, hl.result_prefixFrom (by simp [Rests])
      (startsUnstepped_flatten h) (fun _ => rfl),
      result_prefixFrom_flatten h hunsigned (hl.isSound.rests [])]
    simp [siblingsOf]

lemma exists_chains {phrases : List (List Tree)} {trees : List Tree}
    (h : List.Forall₂ Assigned phrases trees) :
    ∃ cs, List.Forall₂ Strung phrases cs ∧
      (∀ c ∈ cs, (c.collapseAll Tier.all.reverse).IsAssignment) ∧
      trees = cs.map Chain.tree := by
  induction h with
  | nil => exact ⟨[], .nil, by simp, rfl⟩
  | cons hl h ih =>
    obtain ⟨c, hc, hassign, rfl⟩ := hl.exists_chain
    obtain ⟨cs, hcs, hassigns, rfl⟩ := ih
    refine ⟨c :: cs, .cons hc hcs, ?_, rfl⟩
    intro b hb
    rcases List.mem_cons.mp hb with rfl | hb
    · exact hassign
    · exact hassigns b hb

lemma isSound_of_forall₂ {phrases : List (List Tree)} {cs : List Chain}
    (h : List.Forall₂ Strung phrases cs) : ∀ c ∈ cs, c.IsSound := by
  induction h with
  | nil => simp
  | cons hl h ih =>
    intro c hc
    rcases List.mem_cons.mp hc with rfl | hc
    · exact hl.isSound
    · exact ih c hc

/-! ### The remaining checks -/

lemma result_checkKnown_iff {ts : List Tree} (h : ∀ t ∈ ts, t ≠ .hole) :
    (checkKnown ts).result = .ok () ↔ ∀ t ∈ ts, t.isKnown = true := by
  induction ts with
  | nil => simp [checkKnown]
  | cons t ts ih =>
    have hts := ih fun u hu => h u (List.mem_cons_of_mem _ hu)
    cases t with
    | hole => exact absurd rfl (h .hole List.mem_cons_self)
    | symbol p s f =>
      by_cases hs : Operator.isKnown s = true
      · simp [checkKnown, Tree.isKnown, hs, hts]
      · simp [checkKnown, Tree.isKnown, hs, Failure.complain]
    | _ => simp [checkKnown, Tree.isKnown, hts]

lemma isKnown_of_isOperand {t : Tree} (h : t.isOperand = true) : t.isKnown = true := by
  cases t <;> simp_all [Tree.isKnown]

lemma Stepped.isKnown {l : List Tree} {t : Tree} (h : Stepped l t) :
    ∀ u ∈ l, u ≠ .hole ∧ u.isKnown = true := by
  induction h with
  | @operand t h =>
    intro u hu
    obtain rfl := List.mem_singleton.mp hu
    exact ⟨by rintro rfl; simp at h, isKnown_of_isOperand h⟩
  | step hs h ih =>
    intro u hu
    rcases List.mem_append.mp hu with hu | hu
    · exact ih u hu
    · obtain rfl := List.mem_singleton.mp hu
      exact ⟨by simp, Operator.isKnown_of_isPostfix hs⟩

lemma Signed.isKnown {l : List Tree} {t : Tree} (h : Signed l t) :
    ∀ u ∈ l, u ≠ .hole ∧ u.isKnown = true := by
  induction h with
  | stepped h => exact h.isKnown
  | sign hs h ih =>
    intro u hu
    rcases List.mem_cons.mp hu with rfl | hu
    · exact ⟨by simp, Operator.isKnown_of_isUnary hs⟩
    · exact ih u hu

lemma Strung.isKnown {l : List Tree} {c : Chain} (h : Strung l c) :
    ∀ u ∈ l, u ≠ .hole ∧ u.isKnown = true := by
  induction h with
  | unit h => exact h.isKnown
  | joined hl hj hm ih =>
    intro u hu
    rcases List.mem_append.mp hu with hu | hu
    · exact hl.isKnown u hu
    · rcases List.mem_cons.mp hu with rfl | hu
      · exact ⟨by simp [Joint.symbol], Operator.isKnown_of_isJoint hj⟩
      · exact ih u hu

lemma isKnown_of_forall₂ {phrases : List (List Tree)} {cs : List Chain}
    (h : List.Forall₂ Strung phrases cs) : ∀ t ∈ phrases.flatten, t ≠ .hole ∧ t.isKnown = true := by
  induction h with
  | nil => simp
  | cons hl h ih =>
    intro t ht
    rcases List.mem_append.mp ht with ht | ht
    · exact hl.isKnown t ht
    · exact ih t ht

lemma result_checkConsumed {ts : List Tree} (h : ∀ t ∈ ts, t.isOperand = true) :
    (checkConsumed ts).result = .ok () := by
  induction ts with
  | nil => rfl
  | cons t ts ih =>
    have hts := ih fun u hu => h u (List.mem_cons_of_mem _ hu)
    have ht := h t List.mem_cons_self
    cases t <;> simp_all [checkConsumed]

/-- Operands are settled by joining them, unless there is just one. -/
lemma result_settle (d : Dialect) (place : Location) {ts : List Tree}
    (h : ∀ t ∈ ts, t.isOperand = true) :
    (settle d place ts).result = .ok (united d.mode place ts) := by
  have hjoined : (joined d.mode place ts).result =
      .ok (.join ((ts.head?.map Tree.place).getD place) d.mode ts) := by
    simp only [joined]
    split
    · next p name heq =>
      obtain ⟨t, ht, hname⟩ := List.exists_of_findSome?_eq_some heq
      have hoperand := h t ht
      cases t <;> simp_all
    · rfl
  match ts, h with
  | [], _ => simpa [settle, united] using hjoined
  | [t], h =>
    have ht := h t List.mem_cons_self
    cases t <;> first | rfl | simp at ht
  | t :: u :: ts, h =>
    have ht := h t List.mem_cons_self
    cases t <;> first | exact hjoined | simp at ht

/-- Phrases side by side are reduced to their trees, if none but the first begins with a sign. -/
theorem result_reduce_flatten (d : Dialect) (place : Location) {phrases : List (List Tree)}
    {trees : List Tree} (h : List.Forall₂ Assigned phrases trees)
    (hunsigned : ∀ l ∈ phrases.tail, beginsWithSign l = false) :
    (reduce d place phrases.flatten).result = .ok (united d.mode place trees) := by
  obtain ⟨cs, hcs, hassign, rfl⟩ := exists_chains h
  have hsound := isSound_of_forall₂ hcs
  have hcollapsed : ∀ c ∈ cs.map (Chain.collapseAll Tier.all.reverse), c.IsSound := by
    intro c hc
    obtain ⟨b, hb, rfl⟩ := List.mem_map.mp hc
    exact Chain.isSound_collapseAll (hsound b hb)
  have hassigned : ∀ c ∈ cs.map (Chain.collapseAll Tier.all.reverse), c.IsAssignment := by
    intro c hc
    obtain ⟨b, hb, rfl⟩ := List.mem_map.mp hc
    exact hassign b hb
  have hsweep :
      (assignmentSweep (siblingsOf (cs.map (Chain.collapseAll Tier.all.reverse)))).result =
        .ok (cs.map Chain.tree) := by
    rw [result_assignmentSweep hcollapsed hassigned, List.map_map]
    rfl
  have hoperand : ∀ t ∈ cs.map Chain.tree, t.isOperand = true := by
    intro t ht
    obtain ⟨c, hc, rfl⟩ := List.mem_map.mp ht
    exact Chain.isOperand_tree (hsound c hc)
  have hknown : (checkKnown phrases.flatten).result = .ok () := by
    have hall := isKnown_of_forall₂ hcs
    exact (result_checkKnown_iff fun t ht => (hall t ht).1).mpr fun t ht => (hall t ht).2
  rw [reduce, result_bind_of_ok hknown,
    result_bind_of_ok (result_prefixSweep_flatten hcs hunsigned),
    result_bind_of_ok (result_binarySweeps hsound), result_bind_of_ok hsweep,
    result_bind_of_ok (result_checkConsumed hoperand)]
  exact result_settle d place hoperand

end Reduction

end LineScript
