import LineScript.Proofs.Compilation.Limit
import LineScript.Proofs.Grouping.Labels
import LineScript.Proofs.Token.Numeral

/-!
# What a compilation comes to

A compilation ends with a result or with diagnostics, whatever its source holds, with one exception:
the fault of a numeral is no diagnostic and ends it at once (`compile_reports_iff`).
-/

namespace LineScript

namespace Compiler

open Traced Grouping

variable {options : Options} {source file : String} {n : Nat} {regions : List Tree}
  {compiled : Compiled}

/-- Reading comes to an unreadable numeral, or grouping to a label that cannot be written. -/
def MeetsNumeralFault (source file : String) : Prop :=
  (∃ text, ComesTo source.toList text ∧ Lexeme.IsUnreadable text) ∨
    ∃ ts, tokens source file = .ok ts ∧ MeetsLargeLabel ts

/-- A source has regions, or there is a diagnostic, unless a numeral has a fault. -/
lemma regionsOf_cases (options : Options) (source file : String) :
    (¬MeetsNumeralFault source file ∧
      ((∃ n regions, regionsOf options source file = .ok (n, regions)) ∨
        ∃ d, regionsOf options source file = .error (.diagnostic d))) ∨
    (MeetsNumeralFault source file ∧
      ∃ fault, regionsOf options source file = .error (.numeral fault)) := by
  have hunreadable := @tokens_eq_numeral_iff source file
  unfold regionsOf
  rcases tokens_cases source file with ⟨ts, hts⟩ | ⟨d, hd⟩ | ⟨fault, hfault⟩
  · have hreads := tokens_eq_ok_iff.mp hts
    have hlabel : MeetsNumeralFault source file ↔ MeetsLargeLabel ts := by
      rw [MeetsNumeralFault, ← hunreadable, hts]
      simp
    obtain ⟨us, last, rfl, hlast, hus⟩ := hreads.exists_last
    have hnumbers : HasLargeNumbersOnly us := fun t ht hlarge =>
      hreads.kind_of_isTooLarge (List.mem_append_left _ ht) hlarge
    rw [meetsLargeLabel_append_end hlast] at hlabel
    rw [hlabel, hts, ok_bind]
    rcases regions_cases ⟨Text.lines source, options.functions⟩ hlast hus hnumbers with
      ⟨hmeets, ⟨regions, hregions⟩ | ⟨d, hd⟩⟩ | ⟨hmeets, hlarge⟩
    · exact Or.inl ⟨hmeets, Or.inl ⟨_, regions, by rw [hregions]; rfl⟩⟩
    · exact Or.inl ⟨hmeets, Or.inr ⟨d, by rw [hd]; rfl⟩⟩
    · exact Or.inr ⟨hmeets, _, by rw [hlarge]; rfl⟩
  · refine Or.inl ⟨?_, Or.inr ⟨d, by rw [hd]; rfl⟩⟩
    rw [MeetsNumeralFault, ← hunreadable, hd]
    simp
  · exact Or.inr ⟨Or.inl (hunreadable.mp ⟨fault, hfault⟩), fault, by rw [hfault]; rfl⟩

/-- A failure that is no diagnostic ends a compilation. -/
lemma resultOf_of_numeral {fault : Numeral.Fault}
    (h : regionsOf options source file = .error (.numeral fault)) :
    resultOf options source file = .error (.numeral fault) := by
  have hregions : regionsOf (new options).options source file = .error (.numeral fault) := h
  rw [resultOf, compile]
  simp only [hregions]
  rfl

/-- A compilation ends with a result or at least one diagnostic unless it meets the fault of a
numeral; then it ends with that fault. -/
theorem compile_reports_iff (options : Options) (source file : String) :
    (((∃ compiled, resultOf options source file = .ok compiled) ∨
      ∃ report d ds, resultOf options source file = .error (.rejected report (d :: ds))) ↔
        ¬MeetsNumeralFault source file) ∧
    (MeetsNumeralFault source file →
      ∃ fault, resultOf options source file = .error (.numeral fault)) := by
  rcases regionsOf_cases options source file with ⟨hmeets, hregions⟩ | ⟨hmeets, fault, hfault⟩
  · refine ⟨iff_of_true ?_ hmeets, fun h => absurd h hmeets⟩
    rcases hregions with ⟨n, regions, hregions⟩ | ⟨d, hd⟩
    · rcases resultOf_of_regionsOf hregions with ⟨-, compiled, hcompiled, -⟩ | ⟨hne, hrejected⟩
      · exact Or.inl ⟨compiled, hcompiled⟩
      · obtain ⟨d, ds, hds⟩ := List.exists_cons_of_ne_nil
          (@collected_reporter_ne_nil options source _ hne)
        exact Or.inr ⟨_, d, ds, by rw [hrejected, hds]⟩
    · obtain ⟨e, ds, hds⟩ := List.exists_cons_of_ne_nil
        (@collected_reporter_ne_nil options source _ (List.cons_ne_nil d []))
      exact Or.inr ⟨_, e, ds, by rw [resultOf_of_diagnostic hd, hds]⟩
  · have hresult := resultOf_of_numeral hfault
    refine ⟨iff_of_false ?_ (not_not.mpr hmeets), fun _ => ⟨fault, hresult⟩⟩
    rw [hresult]
    simp

/-- A superscript is a digit without a decimal value, so a script that is one has neither a result
nor a diagnostic. -/
theorem compile_superscript :
    ¬((∃ compiled, resultOf {} "²" "f.ms" = .ok compiled) ∨
      ∃ report d ds, resultOf {} "²" "f.ms" = .error (.rejected report (d :: ds))) := by
  have hunreadable : Lexeme.IsUnreadable ['²'] := by
    refine ⟨by decide, rfl, fun h => ?_⟩
    exact absurd (h.1 '²' (by decide)) (by decide)
  have hmeets : MeetsNumeralFault "²" "f.ms" :=
    Or.inl ⟨['²'], ComesTo.gap (n := 0) rfl, hunreadable⟩
  rcases regionsOf_cases {} "²" "f.ms" with ⟨hnot, -⟩ | ⟨-, fault, hfault⟩
  · exact absurd hmeets hnot
  · simp [resultOf_of_numeral hfault]

/-! ### Regions and their trees -/

/-- A source that has regions has tokens, the last of which marks its end. -/
lemma exists_tokens_of_regionsOf (h : regionsOf options source file = .ok (n, regions)) :
    ∃ us last, tokens source file = .ok (us ++ [last]) ∧ last.kind = .eof ∧
      (∀ t ∈ us, t.kind ≠ .eof) ∧
      Source.regions ⟨Text.lines source, options.functions⟩ (us ++ [last]) = .ok regions := by
  obtain ⟨ts, hts, h⟩ := bind_eq_ok_iff.mp h
  obtain ⟨rs, hrs, h⟩ := bind_eq_ok_iff.mp h
  obtain ⟨-, rfl⟩ := Prod.mk.inj (Except.ok.inj h)
  obtain ⟨us, last, rfl, hlast, hus⟩ := (tokens_eq_ok_iff.mp hts).exists_last
  exact ⟨us, last, hts, hlast, hus, hrs⟩

/-- The regions of a source are lists of elements that come from its tokens. -/
lemma isRegion_of_regionsOf (h : regionsOf options source file = .ok (n, regions)) :
    ∃ ts, ∀ region ∈ regions, IsRegion (Bears options.functions ts) region := by
  obtain ⟨us, last, -, hlast, hus, hrs⟩ := exists_tokens_of_regionsOf h
  exact ⟨us ++ [last], isRegion_of_mem_regions hlast hus hrs⟩

/-- All regions of a source that is compiled have come to trees. -/
lemma exists_regions_of_resultOf (h : resultOf options source file = .ok compiled) :
    ∃ n regions, regionsOf options source file = .ok (n, regions) ∧
      List.Forall₂ (fun region t => (treat options region).result = .ok t)
        regions compiled.trees := by
  rcases regionsOf_cases options source file with
    ⟨-, ⟨n, regions, hregions⟩ | ⟨d, hd⟩⟩ | ⟨-, fault, hfault⟩
  · rcases resultOf_of_regionsOf hregions with ⟨hnone, c, hc, htrees⟩ | ⟨-, hrejected⟩
    · obtain rfl := Except.ok.inj (hc.symm.trans h)
      exact ⟨n, regions, hregions,
        htrees ▸ forall₂_outcomes (onlyComplain_of_regionsOf hregions) hnone⟩
    · cases hrejected.symm.trans h
  · cases (resultOf_of_diagnostic hd).symm.trans h
  · cases (resultOf_of_numeral hfault).symm.trans h

end Compiler

end LineScript
