import LineScript.Proofs.Compilation.Regions
import LineScript.Proofs.Finishing.Relocation
import LineScript.Proofs.Grouping.Context
import LineScript.Proofs.Grouping.Relocation
import LineScript.Proofs.Token.Joining

/-!
# Sources are compiled independently of each other

To compile two sources with a line feed between them is to compile each of them: the regions, trees
and diagnostics of the second one follow those of the first, on later lines.
-/

namespace LineScript

namespace Compiler

open Traced Grouping

variable {options : Options} {regions regions' : List Tree} {φ : Location → Location}

/-! ### At other places -/

lemma treat_relocate (options : Options) (region : Tree) :
    treat options (region.relocate φ) = (treat options region).relocate φ (Tree.relocate φ) := by
  unfold treat
  split_ifs
  · exact Tree.finish_relocate options.dialect region
  · rfl

lemma complaint?_relocate (x : Traced Tree) :
    complaint? (x.relocate φ (Tree.relocate φ)) = (complaint? x).map (Diagnostic.relocate φ) := by
  obtain ⟨steps, result⟩ := x
  cases result with
  | ok tree => rfl
  | error f => cases f <;> rfl

lemma complaints_relocate (regions : List Tree) :
    complaints options (regions.map (Tree.relocate φ)) =
      (complaints options regions).map (Diagnostic.relocate φ) := by
  simp only [complaints, List.filterMap_map, List.map_filterMap, Function.comp_def, treat_relocate,
    complaint?_relocate]

lemma outcomes_relocate (regions : List Tree) :
    outcomes options (regions.map (Tree.relocate φ)) =
      (outcomes options regions).map (Tree.relocate φ) := by
  have htoOption : ∀ x : Traced Tree, (x.relocate φ (Tree.relocate φ)).result.toOption =
      x.result.toOption.map (Tree.relocate φ) := by
    rintro ⟨steps, result⟩
    cases result <;> rfl
  simp only [outcomes, List.filterMap_map, List.map_filterMap, Function.comp_def, treat_relocate,
    htoOption]

lemma stepsFor_relocate (regions : List Tree) :
    stepsFor options (regions.map (Tree.relocate φ)) =
      (stepsFor options regions).map (Step.relocate φ) := by
  simp only [stepsFor, List.flatMap_map, List.map_flatMap, treat_relocate]
  rfl

/-! ### Two sources -/

/-- The tokens and regions of two sources with a line feed between them. -/
theorem regionsOf_joined {first second file : String} {n m : Nat}
    (hfirst : regionsOf options first file = .ok (n, regions))
    (hsecond : regionsOf options second file = .ok (m, regions')) :
    regionsOf options (first ++ "\n" ++ second) file = .ok (n + m,
      regions ++ regions'.map (Tree.relocate (Location.below (lineCount first)))) := by
  obtain ⟨ts, hts, hfirst⟩ := bind_eq_ok_iff.mp hfirst
  obtain ⟨rs, hrs, hfirst⟩ := bind_eq_ok_iff.mp hfirst
  obtain ⟨rfl, rfl⟩ := Prod.mk.inj (Except.ok.inj hfirst)
  obtain ⟨us, hus, hsecond⟩ := bind_eq_ok_iff.mp hsecond
  obtain ⟨rs', hrs', hsecond⟩ := bind_eq_ok_iff.mp hsecond
  obtain ⟨rfl, rfl⟩ := Prod.mk.inj (Except.ok.inj hsecond)
  obtain ⟨vs, last, rfl, htokens⟩ := tokens_joined hts hus
  obtain ⟨ws, last', rfl, -⟩ := (tokens_eq_ok_iff.mp hus).exists_last
  obtain ⟨hlast, hvs⟩ := kind_of_tokens hts
  obtain ⟨hlast', hws⟩ := kind_of_tokens hus
  set move := Location.below (lineCount first)
  let s : Source := ⟨Text.lines (first ++ "\n" ++ second), options.functions⟩
  have hregistry : ∀ lines, s.registry = (Source.mk lines options.functions).registry :=
    fun _ => rfl
  have hbefore : s.regions (vs ++ [last]) = .ok rs :=
    regions_of_registry_eq (hregistry _) hlast hvs hrs
  have hbehind : s.regions ((ws ++ [last']).map (Token.relocate move)) =
      .ok (rs'.map (Tree.relocate move)) := regions_relocate move (hregistry _) hlast' hws hrs'
  rw [List.map_append, List.map_singleton] at hbehind htokens
  have hnewline : (Token.mk .newline .null last.place).kind = .newline := rfl
  have hend : (last'.relocate move).kind = .eof := hlast'
  have hmoved : ∀ t ∈ ws.map (Token.relocate move), t.kind ≠ .eof := by
    simpa [Token.relocate] using hws
  have hall := regions_append hnewline hlast hend hvs hmoved hbefore hbehind
  rw [List.append_assoc, List.cons_append] at hall
  rw [regionsOf, htokens, ok_bind, hall, ok_bind]
  refine congrArg Except.ok (Prod.ext ?_ rfl)
  simp only [List.length_append, List.length_cons, List.length_map, List.length_nil]
  omega

lemma complaints_append (regions regions' : List Tree) :
    complaints options (regions ++ regions') =
      complaints options regions ++ complaints options regions' :=
  List.filterMap_append

lemma outcomes_append (regions regions' : List Tree) :
    outcomes options (regions ++ regions') =
      outcomes options regions ++ outcomes options regions' :=
  List.filterMap_append

lemma stepsFor_append (regions regions' : List Tree) :
    stepsFor options (regions ++ regions') =
      stepsFor options regions ++ stepsFor options regions' :=
  List.flatMap_append

lemma map_unsourced_relocate (ds : List Diagnostic) :
    (ds.map (Diagnostic.relocate φ)).map Diagnostic.unsourced =
      (ds.map Diagnostic.unsourced).map (Diagnostic.relocate φ) := by
  simp [Diagnostic.unsourced, Diagnostic.relocate]

/-- A source without complaints has a result, and one with complaints has none. -/
lemma complaints_eq_nil_iff {source file : String} {n : Nat}
    (h : regionsOf options source file = .ok (n, regions))
    (hlimit : (errorsOf options source file).length < options.maxErrors) :
    complaints options regions = [] ↔ ∃ a, resultOf options source file = .ok a := by
  rcases (compile_eq h (Or.inl hlimit)).2 with ⟨hnone, hresult⟩ | ⟨hsome, report, hresult⟩
  · simp [hnone, hresult]
  · simp [hsome, hresult]

/-- Two sources with a line feed between them compile to what each of them compiles to, the second
on later lines, if the limit is above the number of their diagnostics. -/
theorem compile_joined {first second file : String} {n m : Nat}
    (hfirst : regionsOf options first file = .ok (n, regions))
    (hsecond : regionsOf options second file = .ok (m, regions'))
    (hlimit : (errorsOf options first file).length + (errorsOf options second file).length <
      options.maxErrors) :
    let joined := first ++ "\n" ++ second
    let move := Location.below (lineCount first)
    regionsOf options joined file = .ok (n + m, regions ++ regions'.map (Tree.relocate move)) ∧
    (∀ a b, resultOf options first file = .ok a → resultOf options second file = .ok b →
      resultOf options joined file = .ok ⟨file, a.trees ++ b.trees.map (Tree.relocate move),
        a.tokenCount + b.tokenCount, a.regionCount + b.regionCount,
        ⟨a.tally.lists + b.tally.lists, a.tally.parens + b.tally.parens,
          a.tally.groups + b.tally.groups⟩, a.warnings ++ b.warnings⟩) ∧
    ((∀ a b, resultOf options first file = .ok a → resultOf options second file ≠ .ok b) →
      (∃ report, resultOf options joined file =
        .error (.rejected report (errorsOf options joined file))) ∧
      (errorsOf options joined file).map Diagnostic.unsourced = (errorsOf options first file ++
        (errorsOf options second file).map (Diagnostic.relocate move)).map
          Diagnostic.unsourced) := by
  intro joined move
  have hjoined := regionsOf_joined hfirst hsecond
  have hlimit₁ : (errorsOf options first file).length < options.maxErrors := by omega
  have hlimit₂ : (errorsOf options second file).length < options.maxErrors := by omega
  obtain ⟨herrors₁, hresult₁⟩ := compile_eq hfirst (Or.inl hlimit₁)
  obtain ⟨herrors₂, hresult₂⟩ := compile_eq hsecond (Or.inl hlimit₂)
  have hcomplaints : complaints options (regions ++ regions'.map (Tree.relocate move)) =
      complaints options regions ++
        (complaints options regions').map (Diagnostic.relocate move) := by
    rw [complaints_append, complaints_relocate]
  have hlength : (complaints options
      (regions ++ regions'.map (Tree.relocate move))).length < options.maxErrors := by
    have hlength₁ := congrArg List.length herrors₁
    have hlength₂ := congrArg List.length herrors₂
    rw [List.length_map] at hlength₁ hlength₂
    rw [hcomplaints, List.length_append, List.length_map]
    omega
  obtain ⟨herrors, hresult⟩ := compile_eq hjoined (Or.inr hlength)
  refine ⟨hjoined, ?_, ?_⟩
  · intro a b ha hb
    have hnone₁ := (complaints_eq_nil_iff hfirst hlimit₁).mpr ⟨a, ha⟩
    have hnone₂ := (complaints_eq_nil_iff hsecond hlimit₂).mpr ⟨b, hb⟩
    have hnone : complaints options (regions ++ regions'.map (Tree.relocate move)) = [] := by
      rw [hcomplaints, hnone₁, hnone₂]
      rfl
    have hcompiled := (hresult.resolve_right fun h => h.1 hnone).2
    rw [(hresult₁.resolve_right fun h => h.1 hnone₁).2] at ha
    rw [(hresult₂.resolve_right fun h => h.1 hnone₂).2] at hb
    obtain rfl := Except.ok.inj ha
    obtain rfl := Except.ok.inj hb
    rw [hcompiled, outcomes_append, outcomes_relocate, stepsFor_append, stepsFor_relocate,
      Tally.ofSteps_append, Tally.ofSteps_map_relocate, List.length_append, List.length_map]
    rfl
  · intro hfails
    have hsome : complaints options (regions ++ regions'.map (Tree.relocate move)) ≠ [] := by
      rw [hcomplaints]
      intro hnone
      obtain ⟨hnone₁, hnone₂⟩ := List.append_eq_nil_iff.mp hnone
      obtain ⟨a, ha⟩ := (complaints_eq_nil_iff hfirst hlimit₁).mp hnone₁
      obtain ⟨b, hb⟩ := (complaints_eq_nil_iff hsecond hlimit₂).mp (List.map_eq_nil_iff.mp hnone₂)
      exact hfails a b ha hb
    refine ⟨(hresult.resolve_left fun h => hsome h.1).2, ?_⟩
    rw [herrors, herrors₁, herrors₂, map_unsourced_attach, hcomplaints, List.map_append,
      List.map_append, map_unsourced_attach, map_unsourced_relocate, map_unsourced_relocate,
      map_unsourced_attach]

/-- The first source has a complaint on its second line and a comment at its end, the second source
a call over two lines and a complaint on its third. -/
theorem compile_joined_complaints :
    let options : Options := {}
    let first := "@a + 1\n[2, 3] // two"
    let second := "f(\n@b)\n* 2"
    let crowded : Complaint := .crowdedGroup "[]" 2
    let misplaced : Complaint := .misplacedSymbol "*"
    errorsOf options first "f.ms" = [⟨crowded, some ⟨"f.ms", 2, 1⟩, some "[2, 3] // two"⟩] ∧
    errorsOf options second "f.ms" = [⟨misplaced, some ⟨"f.ms", 3, 1⟩, some "* 2"⟩] ∧
    (errorsOf options (first ++ "\n" ++ second) "f.ms").map Diagnostic.unsourced =
      [⟨crowded, some ⟨"f.ms", 2, 1⟩, none⟩, ⟨misplaced, some ⟨"f.ms", 5, 1⟩, none⟩] := by
  intro options first second crowded misplaced
  have herrors₁ : errorsOf options first "f.ms" =
      [⟨crowded, some ⟨"f.ms", 2, 1⟩, some "[2, 3] // two"⟩] := by decide +kernel
  have herrors₂ : errorsOf options second "f.ms" =
      [⟨misplaced, some ⟨"f.ms", 3, 1⟩, some "* 2"⟩] := by decide +kernel
  have hsome₁ : (regionsOf options first "f.ms").toOption.isSome = true := by decide +kernel
  have hsome₂ : (regionsOf options second "f.ms").toOption.isSome = true := by decide +kernel
  have hnone : (resultOf options second "f.ms").toOption = none := by
    rw [← Option.isNone_iff_eq_none]
    decide +kernel
  obtain ⟨⟨n, rs⟩, hfirst⟩ := Option.isSome_iff_exists.mp hsome₁
  obtain ⟨⟨m, rs'⟩, hsecond⟩ := Option.isSome_iff_exists.mp hsome₂
  obtain ⟨-, -, hjoined⟩ := compile_joined (eq_ok_of_toOption hfirst) (eq_ok_of_toOption hsecond)
    (by rw [herrors₁, herrors₂]; decide)
  have herrors := (hjoined fun a b _ hb => by simp [hb, Except.toOption] at hnone).2
  have hlines : lineCount first = 2 := by decide +kernel
  rw [herrors₁, herrors₂, hlines] at herrors
  exact ⟨herrors₁, herrors₂, herrors⟩

end Compiler

end LineScript
