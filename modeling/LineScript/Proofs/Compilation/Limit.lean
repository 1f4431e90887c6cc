import LineScript.Proofs.Compilation.Regions

/-!
# The limit on diagnostics

The regions of a source are treated in order until as many diagnostics have been collected as the
limit says, at least one. A compilation therefore reports the first of them and none of the others.
-/

namespace LineScript

namespace Collector

/-- Collect diagnostics one after the other until a stop is asked for. -/
def gather (c : Collector) : List Diagnostic → Collector
  | [] => c
  | d :: ds =>
    match c.add d with
    | (c, true) => c.gather ds
    | (c, false) => c

lemma gather_singleton (c : Collector) (d : Diagnostic) : c.gather [d] = (c.add d).1 := by
  rw [gather]
  obtain ⟨c', goesOn⟩ := c.add d
  cases goesOn <;> rfl

/-- How many more diagnostics are collected before a stop is asked for. -/
def room (c : Collector) : Nat := (max 1 (c.limit - c.collected.length)).toNat

lemma room_pos (c : Collector) : 0 < c.room := by
  unfold room
  omega

/-- Exactly the diagnostics that there is room for are collected, and filling the room is a stop. -/
theorem gather_eq (c : Collector) (ds : List Diagnostic) : c.gather ds =
    { c with
      collected := c.collected ++ (ds.take c.room).map c.attach
      stops := c.stops ++ if c.room ≤ ds.length then [c.collected.length + c.room] else [] } := by
  induction ds generalizing c with
  | nil =>
    have hpos := c.room_pos
    simp [gather, Nat.not_le.mpr hpos]
  | cons d ds ih =>
    by_cases hlimit : (c.collected ++ [c.attach d]).length < c.limit
    · have hadd : c.add d = ({ c with collected := c.collected ++ [c.attach d] }, true) :=
        if_pos hlimit
      have hroom : c.room = room { c with collected := c.collected ++ [c.attach d] } + 1 := by
        simp only [List.length_append, List.length_singleton] at hlimit
        simp only [room, List.length_append, List.length_singleton]
        omega
      rw [gather, hadd]
      dsimp only
      rw [ih, hroom]
      have hattach : attach { c with collected := c.collected ++ [c.attach d] } = c.attach := rfl
      simp [hattach, Nat.add_assoc, Nat.add_comm 1]
    · have hadd : c.add d = ({ c with
          collected := c.collected ++ [c.attach d]
          stops := c.stops ++ [(c.collected ++ [c.attach d]).length] }, false) := if_neg hlimit
      have hroom : c.room = 1 := by
        simp only [List.length_append, List.length_singleton] at hlimit
        unfold room
        omega
      rw [gather, hadd, hroom]
      simp

end Collector

namespace Compiler

open Traced Collector

variable {options : Options} {c : Collector} {regions : List Tree} {source file : String} {n : Nat}

/-! ### The regions of a source -/

lemma outcomes_cons_of_ok {region tree : Tree} (h : (treat options region).result = .ok tree) :
    outcomes options (region :: regions) = tree :: outcomes options regions := by
  simp [outcomes, h, Except.toOption]

lemma finishRegions_gather (hfinish : options.finish = true) (h : OnlyComplain options regions) :
    (finishRegions options.dialect c regions).1 = c.gather (complaints options regions) ∧
      (∃ trees, (finishRegions options.dialect c regions).2.result = .ok trees) ∧
      (complaints options regions = [] → (finishRegions options.dialect c regions).2 =
        ⟨stepsFor options regions, .ok (outcomes options regions)⟩) := by
  induction regions generalizing c with
  | nil => exact ⟨rfl, ⟨[], rfl⟩, fun _ => rfl⟩
  | cons region regions ih =>
    have htreat : treat options region = region.finish options.dialect := if_pos hfinish
    have hregions : OnlyComplain options regions := fun r hr => h r (List.mem_cons_of_mem _ hr)
    cases hresult : (treat options region).result with
    | ok tree =>
      have hok : (region.finish options.dialect).result = .ok tree := htreat ▸ hresult
      obtain ⟨hcollector, ⟨trees, htrees⟩, hall⟩ := ih hregions (c := c)
      rw [finishRegions_cons_of_ok hok, complaints_cons_of_ok hresult]
      refine ⟨hcollector, ⟨tree :: trees, by rw [htrees]; rfl⟩, fun hnone => ?_⟩
      rw [hall hnone, outcomes_cons_of_ok hresult, ← htreat]
      rfl
    | error f =>
      obtain ⟨e, rfl⟩ := h region List.mem_cons_self f hresult
      have herror : (region.finish options.dialect).result = .error (.diagnostic e) :=
        htreat ▸ hresult
      rw [complaints_cons_of_diagnostic hresult, gather]
      by_cases hlimit : (withComplaint c e).collected.length < c.limit
      · have hadd : c.add e = (withComplaint c e, true) := if_pos hlimit
        obtain ⟨hcollector, htrees, -⟩ := ih hregions (c := withComplaint c e)
        rw [finishRegions_cons_of_diagnostic herror hlimit, hadd]
        exact ⟨hcollector, htrees, fun hnone => absurd hnone (List.cons_ne_nil _ _)⟩
      · have hadd : c.add e = ({ withComplaint c e with
            stops := c.stops ++ [(withComplaint c e).collected.length] }, false) := if_neg hlimit
        simp only [finishRegions, herror, hadd]
        exact ⟨trivial, ⟨[], rfl⟩, fun hnone => absurd hnone (List.cons_ne_nil _ _)⟩

/-- The diagnostics of regions are gathered in their order. -/
lemma treesOf_gather (h : OnlyComplain options regions) :
    (treesOf options c regions).1 = c.gather (complaints options regions) ∧
      (∃ trees, (treesOf options c regions).2.result = .ok trees) ∧
      (complaints options regions = [] → (treesOf options c regions).2 =
        ⟨stepsFor options regions, .ok (outcomes options regions)⟩) := by
  cases hfinish : options.finish with
  | true =>
    rw [treesOf, if_pos hfinish]
    exact finishRegions_gather hfinish h
  | false =>
    have htreat : ∀ region, treat options region = pure region := fun region => by
      simp [treat, hfinish]
    have hnone : complaints options regions = [] := by simp [complaints, complaint?, htreat]
    have htrees : treesOf options c regions = (c, pure regions) := by simp [treesOf, hfinish]
    rw [htrees, hnone]
    refine ⟨rfl, ⟨regions, rfl⟩, fun _ => ?_⟩
    simp [stepsFor, outcomes, htreat, Except.toOption, Pure.pure]

lemma forall₂_outcomes (h : OnlyComplain options regions)
    (hnone : complaints options regions = []) :
    List.Forall₂ (fun region tree => (treat options region).result = .ok tree) regions
      (outcomes options regions) := by
  induction regions with
  | nil => exact .nil
  | cons region regions ih =>
    have hregions : OnlyComplain options regions := fun r hr => h r (List.mem_cons_of_mem _ hr)
    cases hresult : (treat options region).result with
    | ok tree =>
      rw [complaints_cons_of_ok hresult] at hnone
      rw [outcomes_cons_of_ok hresult]
      exact .cons hresult (ih hregions hnone)
    | error f =>
      obtain ⟨e, rfl⟩ := h region List.mem_cons_self f hresult
      rw [complaints_cons_of_diagnostic hresult] at hnone
      cases hnone

/-! ### What a compilation reports -/

/-- The collector at the end of a compilation with the given diagnostics. -/
def reporter (options : Options) (source : String) (ds : List Diagnostic) : Collector :=
  (collectorFor options source).gather ds

lemma reporter_eq (options : Options) (source : String) (ds : List Diagnostic) :
    let limit := (max 1 options.maxErrors).toNat
    reporter options source ds = ⟨options.maxErrors, Text.lines source,
      (ds.take limit).map (collectorFor options source).attach,
      if limit ≤ ds.length then [limit] else []⟩ := by
  have hfresh : collectorFor options source = ⟨options.maxErrors, Text.lines source, [], []⟩ := rfl
  have hroom : (collectorFor options source).room = (max 1 options.maxErrors).toNat := by
    simp [room, hfresh]
  rw [reporter, gather_eq, hroom, hfresh]
  simp

lemma collected_reporter_ne_nil {ds : List Diagnostic} (h : ds ≠ []) :
    (reporter options source ds).collected ≠ [] := by
  have hlimit : (max 1 options.maxErrors).toNat ≠ 0 := by omega
  rw [reporter_eq]
  simp [h, hlimit]

lemma verdict_reporter {ds : List Diagnostic} (h : ds ≠ []) : (reporter options source ds).verdict =
    .error (.rejected (reporter options source ds).report (reporter options source ds).collected) :=
  if_neg (by simpa using collected_reporter_ne_nil h)

lemma result_conclude_of_ok {x : Traced (List Tree)} {trees : List Tree} {m : Nat}
    (h : x.result = .ok trees) : (conclude c file n m x).result =
      c.verdict.map fun _ => ⟨file, trees, n, m, .ofSteps x.steps, c.warnings⟩ := by
  obtain ⟨steps, result⟩ := x
  obtain rfl : result = .ok trees := h
  exact result_conclude

/-- Without a diagnostic all regions have come to trees, whatever the limit is. -/
lemma resultOf_of_complaints_eq_nil (h : regionsOf options source file = .ok (n, regions))
    (hnone : complaints options regions = []) : resultOf options source file = .ok ⟨file,
      outcomes options regions, n, regions.length, .ofSteps (stepsFor options regions), []⟩ := by
  obtain ⟨hcollector, -, hall⟩ :=
    treesOf_gather (c := collectorFor options source) (onlyComplain_of_regionsOf h)
  rw [(compile_of_regionsOf h).2, hcollector, hall hnone, hnone, result_conclude]
  rfl

/-- Without a diagnostic there are all trees, and otherwise the first diagnostics. -/
theorem resultOf_of_regionsOf (h : regionsOf options source file = .ok (n, regions)) :
    (complaints options regions = [] ∧ ∃ compiled, resultOf options source file = .ok compiled ∧
      compiled.trees = outcomes options regions) ∨
    (complaints options regions ≠ [] ∧ resultOf options source file = .error (.rejected
      (reporter options source (complaints options regions)).report
      (reporter options source (complaints options regions)).collected)) := by
  by_cases hnone : complaints options regions = []
  · exact Or.inl ⟨hnone, _, resultOf_of_complaints_eq_nil h hnone, rfl⟩
  · obtain ⟨hcollector, ⟨trees, htrees⟩, -⟩ :=
      treesOf_gather (c := collectorFor options source) (onlyComplain_of_regionsOf h)
    refine Or.inr ⟨hnone, ?_⟩
    rw [(compile_of_regionsOf h).2, result_conclude_of_ok htrees, hcollector]
    exact congrArg (Except.map _) (verdict_reporter hnone)

/-- A source that has no regions is reported with one diagnostic. -/
theorem resultOf_of_diagnostic {d : Diagnostic}
    (h : regionsOf options source file = .error (.diagnostic d)) :
    resultOf options source file = .error (.rejected (reporter options source [d]).report
      (reporter options source [d]).collected) := by
  have hregions : regionsOf (new options).options source file = .error (.diagnostic d) := h
  have hresult : resultOf options source file =
      (conclude ((collectorFor options source).add d).1 file 0 0 (pure [])).result := by
    rw [resultOf, compile]
    simp only [hregions]
    rfl
  rw [hresult, ← gather_singleton, result_conclude_of_ok rfl]
  exact congrArg (Except.map _) (verdict_reporter (List.cons_ne_nil d []))

end Compiler

end LineScript
