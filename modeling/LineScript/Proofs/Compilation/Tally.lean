import LineScript.Proofs.Compilation.Outcome
import LineScript.Proofs.Grouping.Counting

/-!
# Counts of a compilation

What is counted while regions are finished can be read off the source. Every list is reduced once,
all parentheses are removed and all brackets and braces become trees of their own, at any depth, and
a word that spells the name of such a group counts like it when it is called
(`compile_counts_tokens`).
-/

namespace LineScript

namespace Compiler

open Traced Grouping LineScript.Tree

variable {options : Options} {source file : String} {compiled : Compiled} {s : Step} {n : ℕ}
  {regions trees : List Tree}

/-- Regions that come to trees take the counted steps of the calls in them. -/
lemma count_stepsFor (hfinish : options.finish = true) (hs : s.isCounted = true)
    (h : List.Forall₂ (fun region t => (treat options region).result = .ok t) regions trees) :
    (stepsFor options regions).count s = callCountList (countedStep? · = some s) regions := by
  induction h with
  | nil => rfl
  | @cons region tree regions trees htree _ ih =>
    have htreat : treat options region = region.finish options.dialect := if_pos hfinish
    rw [htreat] at htree
    rw [stepsFor, List.flatMap_cons, List.count_append, ← stepsFor, ih, htreat,
      count_finish hs htree, callCountList]

/-- A result has the count of all steps that were taken for its regions. -/
lemma exists_tally_of_resultOf (h : resultOf options source file = .ok compiled) :
    ∃ n regions, regionsOf options source file = .ok (n, regions) ∧
      List.Forall₂ (fun region t => (treat options region).result = .ok t)
        regions compiled.trees ∧
      compiled.regionCount = regions.length ∧
      compiled.tally = .ofSteps (stepsFor options regions) := by
  obtain ⟨n, regions, hregions, htrees⟩ := exists_regions_of_resultOf h
  refine ⟨n, regions, hregions, htrees, ?_⟩
  rcases resultOf_of_regionsOf hregions with ⟨hnone, -⟩ | ⟨-, hrejected⟩
  · have hresult := resultOf_of_complaints_eq_nil hregions hnone
    obtain rfl := Except.ok.inj (hresult.symm.trans h)
    exact ⟨rfl, rfl⟩
  · cases hrejected.symm.trans h

/-- The counts of a compilation that finishes its regions, by the tokens of the source. -/
theorem compile_counts_tokens (hfinish : options.finish = true)
    (h : resultOf options source file = .ok compiled) :
    ∃ ts, tokens source file = .ok ts ∧
      compiled.tally.groups =
        (ts.countP (fun t => t.kind = .leftBracket || t.kind = .leftBrace) +
          countAt (fun _ => isCallOf fun name => name = bracketName || name = braceName) none ts :
            ℕ) ∧
      compiled.tally.parens = (countAt (fun previous t _ => isFreeParen previous t) none ts +
        countAt (fun _ => isCallOf (· = parenName)) none ts : ℕ) ∧
      compiled.tally.lists = (compiled.regionCount + countAt (fun _ => isFilled) none ts +
        ts.countP (·.kind = .comma) + countAt (fun _ => isCallOf (· = listName)) none ts : ℕ) ∧
      compiled.tally.total =
        compiled.tally.lists + compiled.tally.parens + compiled.tally.groups := by
  obtain ⟨n, regions, hregions, htrees, hcount, htally⟩ := exists_tally_of_resultOf h
  obtain ⟨us, last, hts, hlast, hus, hrs⟩ := exists_tokens_of_regionsOf hregions
  have hnumbers : HasLargeNumbersOnly us := fun t ht hlarge =>
    (tokens_eq_ok_iff.mp hts).kind_of_isTooLarge (List.mem_append_left _ ht) hlarge
  have hcalls := callCountList_regions hlast hus hnumbers hrs
  have hsteps : ∀ s : Step, s.isCounted = true → (stepsFor options regions).count s =
      callCountList (countedStep? · = some s) regions := fun s hs =>
    count_stepsFor hfinish hs htrees
  refine ⟨us ++ [last], hts, ?_, ?_, ?_, rfl⟩
  · have hwanted : bracketName ≠ listName ∧ braceName ≠ listName := by decide
    rw [htally, Tally.ofSteps, hsteps .group rfl, countedStep?_eq_group, hcalls]
    simp only [isGroupOf_bracket_or_brace, countAt_eq_countP]
    simp [hwanted.1.symm, hwanted.2.symm, Nat.add_comm]
  · have hwanted : listName ≠ parenName := by decide
    rw [htally, Tally.ofSteps, hsteps .paren rfl, countedStep?_eq_paren, hcalls]
    simp only [isGroupOf_paren]
    simp [hwanted, Nat.add_comm]
  · rw [htally, Tally.ofSteps, hsteps .list rfl, countedStep?_eq_list, hcalls, hcount]
    simp only [isGroupOf_list, countAt_eq_zero fun _ _ _ => rfl]
    simp [Nat.add_assoc]

/-- Of the seven groups of a source the one between `{` and `}` and the one between `(` and `)` are
closed where they were opened, and three belong to words that spell the names of groups. -/
theorem compile_counts_spelled_groups :
    let options : Options := {}
    let source := "f([1], (), p(\x7b\x7d,\n)) __cbracket__(2)\n__autoconcat__(3, 4)"
    options.finish = true ∧ ∃ compiled, resultOf options source "f.ms" = .ok compiled ∧
      compiled.tally = ⟨2 + 5 + 4 + 1, 1 + 1, 2 + 1⟩ ∧
      ∃ ts, tokens source "f.ms" = .ok ts ∧
        compiled.tally.groups =
          (ts.countP (fun t => t.kind = .leftBracket || t.kind = .leftBrace) +
            countAt (fun _ => isCallOf fun name => name = bracketName || name = braceName) none ts :
              ℕ) ∧
        compiled.tally.parens = (countAt (fun previous t _ => isFreeParen previous t) none ts +
          countAt (fun _ => isCallOf (· = parenName)) none ts : ℕ) ∧
        compiled.tally.lists = (compiled.regionCount + countAt (fun _ => isFilled) none ts +
          ts.countP (·.kind = .comma) + countAt (fun _ => isCallOf (· = listName)) none ts : ℕ) ∧
        compiled.tally.total =
          compiled.tally.lists + compiled.tally.parens + compiled.tally.groups := by
  intro options source
  have hcompiles : (resultOf options source "f.ms").toOption.any
      (fun compiled => compiled.tally = ⟨2 + 5 + 4 + 1, 1 + 1, 2 + 1⟩) = true := by decide +kernel
  obtain ⟨compiled, hcompiled, htally⟩ := (Option.any_eq_true _ _).mp hcompiles
  have hresult := eq_ok_of_toOption hcompiled
  exact ⟨rfl, compiled, hresult, by simpa using htally, compile_counts_tokens rfl hresult⟩

end Compiler

end LineScript
