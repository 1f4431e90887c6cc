import LineScript.Compilation
import LineScript.Proofs.Finishing.Complaints
import LineScript.Proofs.Token.Reading

/-!
# Compilation region by region

The regions of a source are treated one after the other and do not know of each other. As long as
the limit on diagnostics is not reached, a compilation gives what its regions give one by one
(`compile_eq`).
-/

namespace LineScript

/-- The diagnostic without its source line. -/
def Diagnostic.unsourced (d : Diagnostic) : Diagnostic := { d with sourceLine := none }

lemma Collector.unsourced_attach (c : Collector) (d : Diagnostic) :
    (c.attach d).unsourced = d.unsourced := by
  unfold attach
  split
  · split <;> rfl
  · rfl

namespace Compiler

open Traced Grouping

lemma map_unsourced_attach (c : Collector) (ds : List Diagnostic) :
    (ds.map c.attach).map Diagnostic.unsourced = ds.map Diagnostic.unsourced := by
  simp [Collector.unsourced_attach]

/-! ### Regions one by one -/

/-- What a region comes to by itself. -/
def treat (options : Options) (region : Tree) : Traced Tree :=
  if options.finish then region.finish options.dialect else pure region

/-- The diagnostic of a computation that fails with one. -/
def complaint? (x : Traced Tree) : Option Diagnostic :=
  match x.result with
  | .error (.diagnostic d) => some d
  | _ => none

/-- The diagnostics of regions. -/
def complaints (options : Options) (regions : List Tree) : List Diagnostic :=
  regions.filterMap fun region => complaint? (treat options region)

/-- What regions come to that have no diagnostic. -/
def outcomes (options : Options) (regions : List Tree) : List Tree :=
  regions.filterMap fun region => (treat options region).result.toOption

/-- The steps that are taken for regions. -/
def stepsFor (options : Options) (regions : List Tree) : List Step :=
  regions.flatMap fun region => (treat options region).steps

/-- All regions, when nothing stops the compilation. -/
def treatAll (options : Options) (c : Collector) (regions : List Tree) :
    Collector × Traced (List Tree) :=
  ({ c with collected := c.collected ++ (complaints options regions).map c.attach },
    ⟨stepsFor options regions, .ok (outcomes options regions)⟩)

variable {options : Options} {c : Collector} {regions : List Tree}

/-- Regions fail with diagnostics only. -/
def OnlyComplain (options : Options) (regions : List Tree) : Prop :=
  ∀ region ∈ regions, ∀ f, (treat options region).result = .error f → ∃ d, f = .diagnostic d

lemma complaints_cons_of_ok {region tree : Tree} (h : (treat options region).result = .ok tree) :
    complaints options (region :: regions) = complaints options regions := by
  simp [complaints, complaint?, h]

lemma complaints_cons_of_diagnostic {region : Tree} {e : Diagnostic}
    (h : (treat options region).result = .error (.diagnostic e)) :
    complaints options (region :: regions) = e :: complaints options regions := by
  simp [complaints, complaint?, h]

lemma treatAll_cons_of_ok {region tree : Tree} (h : (treat options region).result = .ok tree) :
    treatAll options c (region :: regions) =
      ((treatAll options c regions).1, ⟨(treat options region).steps ++
        (treatAll options c regions).2.steps,
        (treatAll options c regions).2.result.map (tree :: ·)⟩) := by
  simp [treatAll, complaints_cons_of_ok h, outcomes, stepsFor, h, Except.toOption, Except.map]

/-- The collector with another diagnostic. -/
def withComplaint (c : Collector) (e : Diagnostic) : Collector :=
  { c with collected := c.collected ++ [c.attach e] }

lemma treatAll_cons_of_diagnostic {region : Tree} {e : Diagnostic}
    (h : (treat options region).result = .error (.diagnostic e)) :
    treatAll options c (region :: regions) =
      ((treatAll options (withComplaint c e) regions).1, ⟨(treat options region).steps ++
        (treatAll options (withComplaint c e) regions).2.steps,
        (treatAll options (withComplaint c e) regions).2.result⟩) := by
  have hcollected : c.collected ++ (e :: complaints options regions).map c.attach =
      (withComplaint c e).collected ++
        (complaints options regions).map (withComplaint c e).attach :=
    List.append_cons _ _ _
  simp only [treatAll, complaints_cons_of_diagnostic h, hcollected]
  simp [outcomes, stepsFor, h, Except.toOption, withComplaint]

lemma finishRegions_cons_of_ok {d : Dialect} {region tree : Tree}
    (h : (region.finish d).result = .ok tree) :
    finishRegions d c (region :: regions) =
      ((finishRegions d c regions).1,
        ⟨(region.finish d).steps ++ (finishRegions d c regions).2.steps,
          (finishRegions d c regions).2.result.map (tree :: ·)⟩) := by
  simp only [finishRegions, h]

lemma finishRegions_cons_of_diagnostic {d : Dialect} {region : Tree} {e : Diagnostic}
    (h : (region.finish d).result = .error (.diagnostic e))
    (hlimit : (withComplaint c e).collected.length < c.limit) :
    finishRegions d c (region :: regions) =
      ((finishRegions d (withComplaint c e) regions).1, ⟨(region.finish d).steps ++
        (finishRegions d (withComplaint c e) regions).2.steps,
        (finishRegions d (withComplaint c e) regions).2.result⟩) := by
  have hadd : c.add e = (withComplaint c e, true) := if_pos hlimit
  simp only [finishRegions, h, hadd]

lemma collected_finishRegions_of_limit_le {d : Dialect} {region : Tree} {e : Diagnostic}
    (h : (region.finish d).result = .error (.diagnostic e))
    (hlimit : ¬(withComplaint c e).collected.length < c.limit) :
    (finishRegions d c (region :: regions)).1.collected = (withComplaint c e).collected := by
  have hadd : c.add e = ({ withComplaint c e with
      stops := c.stops ++ [(withComplaint c e).collected.length] }, false) := if_neg hlimit
  simp only [finishRegions, h, hadd]

/-- Either all regions are treated, or the limit is reached. -/
lemma finishRegions_cases (hfinish : options.finish = true) (h : OnlyComplain options regions) :
    finishRegions options.dialect c regions = treatAll options c regions ∨
      c.limit ≤ (finishRegions options.dialect c regions).1.collected.length ∧
      c.limit ≤ c.collected.length + (complaints options regions).length := by
  induction regions generalizing c with
  | nil =>
    left
    simp [finishRegions, treatAll, complaints, outcomes, stepsFor, Pure.pure]
  | cons region regions ih =>
    have htreat : treat options region = region.finish options.dialect := if_pos hfinish
    have hregions : OnlyComplain options regions := fun r hr => h r (List.mem_cons_of_mem _ hr)
    cases hresult : (treat options region).result with
    | ok tree =>
      have hok : (region.finish options.dialect).result = .ok tree := htreat ▸ hresult
      rw [finishRegions_cons_of_ok hok, treatAll_cons_of_ok hresult, complaints_cons_of_ok hresult,
        htreat]
      rcases ih hregions (c := c) with heq | hle
      · exact Or.inl (by rw [heq])
      · exact Or.inr hle
    | error f =>
      obtain ⟨e, rfl⟩ := h region List.mem_cons_self f hresult
      have herror : (region.finish options.dialect).result = .error (.diagnostic e) :=
        htreat ▸ hresult
      rw [treatAll_cons_of_diagnostic hresult, complaints_cons_of_diagnostic hresult,
        List.length_cons]
      by_cases hlimit : (withComplaint c e).collected.length < c.limit
      · rw [finishRegions_cons_of_diagnostic herror hlimit, htreat]
        rcases ih hregions (c := withComplaint c e) with heq | ⟨hfinished, htotal⟩
        · exact Or.inl (by rw [heq])
        · refine Or.inr ⟨hfinished, htotal.trans ?_⟩
          simp [withComplaint]
          omega
      · -- no further region is treated, but the diagnostics so far reach the limit
        right
        rw [collected_finishRegions_of_limit_le herror hlimit]
        simp only [withComplaint, List.length_append, List.length_singleton] at hlimit ⊢
        omega

/-- Either all regions are treated, or the limit is reached. -/
lemma treesOf_cases (h : OnlyComplain options regions) :
    treesOf options c regions = treatAll options c regions ∨
      c.limit ≤ (treesOf options c regions).1.collected.length ∧
      c.limit ≤ c.collected.length + (complaints options regions).length := by
  cases hfinish : options.finish with
  | true =>
    rw [treesOf, if_pos hfinish]
    exact finishRegions_cases hfinish h
  | false =>
    left
    have htreat : ∀ region, treat options region = pure region := fun region => by
      simp [treat, hfinish]
    simp [treesOf, hfinish, treatAll, complaints, outcomes, stepsFor, complaint?, htreat,
      Except.toOption, Pure.pure]

/-! ### Compilations -/

/-- The regions of a source are treated without a failure but diagnostics. -/
lemma onlyComplain_of_regionsOf {source file : String} {n : Nat}
    (h : regionsOf options source file = .ok (n, regions)) : OnlyComplain options regions := by
  obtain ⟨ts, hts, h⟩ := bind_eq_ok_iff.mp h
  obtain ⟨rs, hrs, h⟩ := bind_eq_ok_iff.mp h
  obtain ⟨-, rfl⟩ := Prod.mk.inj (Except.ok.inj h)
  intro region hregion f hf
  unfold treat at hf
  split_ifs at hf
  · have hdelivers := Tree.delivers_finish_region (d := options.dialect)
      (s := ⟨_, options.functions⟩) rfl hts hrs hregion
    rcases hdelivers.cases with ⟨tree, htree, -⟩ | ⟨d, hd, -⟩
    · cases hf.symm.trans htree
    · exact ⟨d, Except.error.inj (hf.symm.trans hd)⟩

/-- The result of a compilation. -/
def resultOf (options : Options) (source file : String) : Except Failure Compiled :=
  ((new options).compile source file).2.result

/-- The diagnostics that a compilation collects. -/
def errorsOf (options : Options) (source file : String) : List Diagnostic :=
  ((new options).compile source file).1.collector.collected

/-- The collector with which the regions of a source are treated. -/
def collectorFor (options : Options) (source : String) : Collector :=
  (Collector.new options.maxErrors).start (Text.lines source)

lemma compile_of_regionsOf {source file : String} {n : Nat}
    (h : regionsOf options source file = .ok (n, regions)) :
    errorsOf options source file =
      (treesOf options (collectorFor options source) regions).1.collected ∧
    resultOf options source file =
      (conclude (treesOf options (collectorFor options source) regions).1 file n regions.length
        (treesOf options (collectorFor options source) regions).2).result := by
  have hregions : regionsOf (new options).options source file = .ok (n, regions) := h
  constructor
  · rw [errorsOf, compile]
    simp only [hregions]
    rfl
  · rw [resultOf, compile]
    simp only [hregions]
    rfl

lemma result_conclude {file : String} {n m : Nat} {steps : List Step} {trees : List Tree} :
    (conclude c file n m ⟨steps, .ok trees⟩).result =
      c.verdict.map fun _ => ⟨file, trees, n, m, .ofSteps steps, c.warnings⟩ := by
  simp only [conclude, result_bind, ok_bind, result_step, Traced.lift]
  cases c.verdict <;> rfl

/-- Below the limit, a compilation gives what the regions give one by one. -/
theorem compile_eq {source file : String} {n : Nat}
    (h : regionsOf options source file = .ok (n, regions))
    (hlimit : (errorsOf options source file).length < options.maxErrors ∨
      (complaints options regions).length < options.maxErrors) :
    errorsOf options source file =
      (complaints options regions).map (collectorFor options source).attach ∧
    ((complaints options regions = [] ∧ resultOf options source file = .ok ⟨file,
      outcomes options regions, n, regions.length, .ofSteps (stepsFor options regions), []⟩) ∨
    (complaints options regions ≠ [] ∧ ∃ report, resultOf options source file =
      .error (.rejected report (errorsOf options source file)))) := by
  obtain ⟨herrors, hresult⟩ := compile_of_regionsOf h
  have hall : treesOf options (collectorFor options source) regions =
      treatAll options (collectorFor options source) regions := by
    rcases treesOf_cases (onlyComplain_of_regionsOf h) with hall | ⟨hfinished, htotal⟩
    · exact hall
    · rw [← herrors] at hfinished
      have hempty : (collectorFor options source).collected.length = 0 := rfl
      have hsame : (collectorFor options source).limit = options.maxErrors := rfl
      omega
  rw [hall] at herrors hresult
  have hcollected : errorsOf options source file =
      (complaints options regions).map (collectorFor options source).attach := herrors
  refine ⟨hcollected, ?_⟩
  rw [treatAll, result_conclude] at hresult
  by_cases hnone : complaints options regions = []
  · refine Or.inl ⟨hnone, ?_⟩
    rw [hresult, hnone]
    rfl
  · refine Or.inr ⟨hnone, (treatAll options (collectorFor options source) regions).1.report, ?_⟩
    have hsome : (complaints options regions).isEmpty = false := by simpa using hnone
    rw [hresult, hcollected, Collector.verdict, if_neg]
    · rfl
    · simp [collectorFor, Collector.new, Collector.start, hsome]

end Compiler

end LineScript
