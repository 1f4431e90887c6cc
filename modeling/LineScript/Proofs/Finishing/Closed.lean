import LineScript.Proofs.Finishing.Cases
import LineScript.Proofs.Reduction.Rewriting

/-!
# Properties that finishing keeps

A property of finished trees is closed under finishing if every tree has it that is made from such
trees: a call of an operation, an entry, a call by a bare name, a join, a bracket or brace, or a
call that stays as it was written. The finished tree of a region then has the property
(`Closed.of_result_finish`).
-/

namespace LineScript

namespace Operator

/-- The names of all operations. -/
def names : List String :=
  operations.map (·.2) ++ stepOperations.map (·.2) ++ [negation, identity, assign]

variable {s op : String}

lemma mem_names_of_isKnown (h : isKnown s = true) (f : Fixity) :
    operation s f ∈ names ∧ prefixOperation s f ∈ names := by
  have hall : ∀ s ∈ known, ∀ f ∈ [Fixity.before, .after, .between],
      operation s f ∈ names ∧ prefixOperation s f ∈ names := by decide
  exact hall s (by simpa [isKnown] using h) f (by cases f <;> simp)

lemma mem_names_of_compound? (hs : isAssignment s = true) (h : compound? s = some op) :
    op ∈ names := by
  have hall : ∀ s ∈ assignments.map (·.1), ∀ op ∈ compound? s, op ∈ names := by decide
  exact hall s (by simpa [isAssignment] using hs) op h

end Operator

namespace Tree

open Reduction Grouping

lemma all_bareArgument {P : Tree → Prop} (hjoin : ∀ p ts, P (.join p .string ts)) {ts : List Tree}
    (h : ∀ t ∈ ts, t.All P) : (bareArgument ts).All P := by
  unfold bareArgument
  split
  · exact h _ List.mem_cons_self
  · exact all_iff.mpr ⟨hjoin _ _, h⟩

/-- The property `G` is kept by finishing, where `N` is known of all parts of the region. -/
structure Closed (d : Dialect) (N G : Tree → Prop) : Prop where
  label : ∀ p n, N (.label p n) → G (.label p n)
  identifier : ∀ p n, N (.identifier p n) → G (.identifier p n)
  literal : ∀ p v, N (.literal p v) → G (.literal p v)
  atName : ∀ p n, N (.variable p n) → G (.variable p n)
  void : ∀ p, G (.void p)
  operation : ∀ p name ts, name ∈ Operator.names → (∀ t ∈ ts, G t) → G (.call p name ts)
  entry : ∀ p q name v, G (.label q name) → G v → G (.entry p (.label q name) v)
  bareCall : ∀ p name ts, ts ≠ [] → G (.identifier p name) → (∀ t ∈ ts, G t) →
    G (.call p name [bareArgument ts])
  join : ∀ p ts, (∀ t ∈ ts, G t) → G (.join p d.mode ts)
  bracket : ∀ p t, G t → G (.bracket p t)
  brace : ∀ p t, G t → G (.brace p t)
  call : ∀ p name ls ts, name ∉ structuralNames → N (.call p name ls) → (∀ t ∈ ts, G t) →
    G (.call p name ts)

namespace Closed

variable {d : Dialect} {N G : Tree → Prop} {p : Location} {name : String} {t : Tree}
  {ts us redex : List Tree}

lemma of_isOperand (h : t.isSymbol = true ∨ G t) (ht : t.isOperand = true) : G t := by
  rcases h with h | h
  · rw [isSymbol_eq_false_of_isOperand ht] at h
    cases h
  · exact h

lemma of_collapses (hG : Closed d N G) (h : Collapses redex t)
    (hredex : ∀ u ∈ redex, u.isSymbol = true ∨ G u) : G t := by
  cases h with
  | @step t p s f hs ht =>
    have hoperand := of_isOperand (hredex t (by simp)) ht
    have hname := (Operator.mem_names_of_isKnown (Operator.isKnown_of_isPostfix hs) f).1
    exact hG.operation _ _ _ hname (by simpa using hoperand)
  | @sign t p s f hs ht =>
    have hoperand := of_isOperand (hredex t (by simp)) ht
    have hname := (Operator.mem_names_of_isKnown (Operator.isKnown_of_isUnary hs) f).2
    exact hG.operation _ _ _ hname (by simpa using hoperand)
  | @binary tier a b p s f hs ha hb =>
    have hleft := of_isOperand (hredex a (by simp)) ha
    have hright := of_isOperand (hredex b (by simp)) hb
    have hknown := Operator.isKnown_of_isJoint (Operator.isJoint_of_holds hs)
    have hname := (Operator.mem_names_of_isKnown hknown f).1
    exact hG.operation _ _ _ hname (by simpa using ⟨hleft, hright⟩)
  | @assign a b p s f hs ha hb =>
    have htarget := of_isOperand (hredex a (by simp)) ha
    have hvalue := of_isOperand (hredex b (by simp)) hb
    have hassign : Operator.assign ∈ Operator.names := by decide
    rw [assignment]
    cases hcompound : Operator.compound? s with
    | none => exact hG.operation _ _ _ hassign (by simpa using ⟨htarget, hvalue⟩)
    | some op =>
      have hresult := hG.operation a.place op [a, b]
        (Operator.mem_names_of_compound? hs hcompound) (by simpa using ⟨htarget, hvalue⟩)
      exact hG.operation _ _ _ hassign (by simpa using ⟨htarget, hresult⟩)

lemma of_rewrites (hG : Closed d N G) (h : Rewrites ts us)
    (hts : ∀ t ∈ ts, t.isSymbol = true ∨ G t) : ∀ u ∈ us, u.isSymbol = true ∨ G u := by
  refine h.preserves (motive := fun ts => ∀ t ∈ ts, t.isSymbol = true ∨ G t) hts ?_
  intro l r redex t hcollapse hall
  simp only [List.forall_mem_append, List.forall_mem_cons] at hall ⊢
  obtain ⟨hl, hredex, hr⟩ := hall
  exact ⟨hl, Or.inr (hG.of_collapses hcollapse hredex), hr⟩

lemma of_settled (hG : Closed d N G) (h : Settled d p ts t) (hts : ∀ t ∈ ts, G t) : G t := by
  induction h with
  | @entry place p name ts v h ih =>
    obtain ⟨hlabel, hts⟩ := List.forall_mem_cons.mp hts
    exact hG.entry p p name v hlabel (ih hts)
  | single => exact hts _ List.mem_cons_self
  | @call place p name ts descriptor hne hlookup =>
    obtain ⟨hname, hts⟩ := List.forall_mem_cons.mp hts
    have heq : descriptor.name = name := by simpa using List.find?_some hlookup
    rw [heq]
    exact hG.bareCall p name ts hne hname hts
  | join => exact hG.join _ _ hts

lemma of_result_reduce (hG : Closed d N G) (h : (reduce d p ts).result = .ok t)
    (hts : ∀ t ∈ ts, t.isSymbol = true ∨ G t) : G t := by
  obtain ⟨-, us, hrewrites, hsymbols, hsettled⟩ := exists_rewrites h
  refine hG.of_settled hsettled fun u hu => ?_
  rcases hG.of_rewrites hrewrites hts u hu with hsymbol | hu'
  · rw [hsymbols u hu] at hsymbol
    cases hsymbol
  · exact hu'

lemma of_soleContent (hG : Closed d N G) (h : SoleContent p ts t) (hts : ∀ t ∈ ts, G t) : G t := by
  cases h with
  | void => exact hG.void p
  | tree => exact hts _ List.mem_cons_self

lemma of_finishedCall (hG : Closed d N G) (h : FinishedCall d p name ts t) {ls : List Tree}
    (hN : N (.call p name ls)) (hts : ∀ t ∈ ts, G t) : G t := by
  cases h with
  | list h => exact hG.of_result_reduce h fun t ht => Or.inr (hts t ht)
  | paren h => exact hG.of_soleContent h hts
  | parenList h => exact hG.of_result_reduce h fun t ht => Or.inr (hts t ht)
  | bracket h => exact hG.bracket p _ (hG.of_soleContent h hts)
  | brace h => exact hG.brace p _ (hG.of_soleContent h hts)
  | call hname => exact hG.call p name ls ts hname hN hts

/-- The property is carried from single tokens up to the lists of a region. -/
lemma carries (hG : Closed d N G) (registry : Registry) (tokens : List Token) :
    Carries d (Bears registry tokens) (fun e u => e.All N → u.isSymbol = true ∨ G u)
      (fun l u => l.call.All N → G u) where
  atom t u ht hu hN := by
    obtain rfl := eq_of_finish_bears ht hu
    rcases ht.cases with
      ⟨p, n, rfl⟩ | ⟨v, -, -, f, rfl⟩ | ⟨p, n, -, rfl⟩ | ⟨p, v, rfl⟩ | ⟨p, n, rfl⟩
    · exact Or.inr (hG.label p n hN.self)
    · exact Or.inl rfl
    · exact Or.inr (hG.identifier p n hN.self)
    · exact Or.inr (hG.literal p v hN.self)
    · exact Or.inr (hG.atName p n hN.self)
  list l us u hus hu hN := by
    have hchildren := (all_iff.mp hN).2
    exact hG.of_result_reduce hu
      (forall_of_forall₂ (forall₂_imp_of_mem hus fun e he v hv => hv (hchildren e he)))
  group p name ls us u hus hu hN := by
    obtain ⟨hcall, hchildren⟩ := all_iff.mp hN
    refine Or.inr (hG.of_finishedCall hu hcall ?_)
    exact forall_of_forall₂ (forall₂_imp_of_mem hus fun l hl v hv =>
      hv (hchildren _ (List.mem_map_of_mem hl)))

/-- The finished tree of a region has the property. -/
theorem of_result_finish (hG : Closed d N G) {registry : Registry} {tokens : List Token}
    {region : Tree} (hregion : IsRegion (Bears registry tokens) region) (hN : region.All N)
    (h : (region.finish d).result = .ok t) : G t := by
  obtain ⟨l, rfl, hl⟩ := hregion
  exact (hG.carries registry tokens).region hl h hN

end Closed

end Tree

end LineScript
