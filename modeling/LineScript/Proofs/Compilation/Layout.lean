import LineScript.Proofs.Compilation.Joining
import LineScript.Proofs.Compilation.Outcome
import LineScript.Proofs.Token.Layout

/-!
# Layout carries no meaning

Where a token stands has no influence on what a source is compiled to. So layout may be added
between the tokens of a source: the trees are the same but for their places, and the complaints are
the same but for their places and the lines that are shown (`compile_insert_layout`).
-/

namespace LineScript

namespace Compiler

open Traced Grouping

variable {options : Options} {source source' file : String} {ts us : List Token}
  {regions regions' : List Tree} {ds ds' : List Diagnostic}

/-! ### What does not depend on places -/

/-- Two compilations come to the same trees but for their places, or to the same complaints. -/
inductive SameOutcome : Except Failure Compiled → Except Failure Compiled → Prop where
  | compiled {a b : Compiled} (htrees : b.trees.map Tree.unplaced = a.trees.map Tree.unplaced)
      (hothers : b = { a with trees := b.trees }) : SameOutcome (.ok a) (.ok b)
  /-- Reports are made of the diagnostics and of how often a stop was asked for. -/
  | rejected {c c' : Collector}
      (hcomplaints : c'.collected.map Diagnostic.complaint = c.collected.map Diagnostic.complaint)
      (hstops : c'.stops = c.stops) : SameOutcome (.error (.rejected c.report c.collected))
        (.error (.rejected c'.report c'.collected))
  | numeral (fault : Numeral.Fault) :
      SameOutcome (.error (.numeral fault)) (.error (.numeral fault))

lemma map_complaint_complaints (options : Options)
    (h : regions'.map Tree.unplaced = regions.map Tree.unplaced) :
    (complaints options regions').map Diagnostic.complaint =
      (complaints options regions).map Diagnostic.complaint := by
  have hrelocate : ∀ ds : List Diagnostic, ds.map Diagnostic.complaint =
      (ds.map (Diagnostic.relocate fun _ => .unknown)).map Diagnostic.complaint := fun ds => by
    rw [List.map_map]
    rfl
  rw [Tree.unplaced_eq] at h
  rw [hrelocate, ← complaints_relocate, h, complaints_relocate, ← hrelocate]

lemma map_unplaced_outcomes (h : regions'.map Tree.unplaced = regions.map Tree.unplaced) :
    (outcomes options regions').map Tree.unplaced =
      (outcomes options regions).map Tree.unplaced := by
  rw [Tree.unplaced_eq] at h ⊢
  rw [← outcomes_relocate, h, outcomes_relocate]

lemma ofSteps_stepsFor (h : regions'.map Tree.unplaced = regions.map Tree.unplaced) :
    Tally.ofSteps (stepsFor options regions') = Tally.ofSteps (stepsFor options regions) := by
  rw [Tree.unplaced_eq] at h
  rw [← Tally.ofSteps_map_relocate fun _ => .unknown, ← stepsFor_relocate, h, stepsFor_relocate,
    Tally.ofSteps_map_relocate]

lemma complaint_attach (c : Collector) (d : Diagnostic) :
    (c.attach d).complaint = d.complaint := by
  have hsame := congrArg Diagnostic.complaint (c.unsourced_attach d)
  exact hsame

/-- The same complaints about two sources are reported alike. -/
lemma sameOutcome_rejected
    (h : ds'.map Diagnostic.complaint = ds.map Diagnostic.complaint) :
    SameOutcome (.error (.rejected (reporter options source ds).report
        (reporter options source ds).collected))
      (.error (.rejected (reporter options source' ds').report
        (reporter options source' ds').collected)) := by
  have hlength : ds'.length = ds.length := by simpa using congrArg List.length h
  refine .rejected ?_ ?_
  · rw [reporter_eq, reporter_eq]
    simp only [List.map_map, Function.comp_def, complaint_attach, List.map_take, h]
  · rw [reporter_eq, reporter_eq, hlength]

/-! ### Sources with the same tokens -/

lemma map_relocate_eq (h : us.map Token.content = ts.map Token.content) :
    us.map (Token.relocate fun _ => .unknown) = ts.map (Token.relocate fun _ => .unknown) := by
  have hmake : ∀ l : List Token, l.map (Token.relocate fun _ => .unknown) =
      (l.map Token.content).map fun x => ⟨x.1, x.2, .unknown⟩ := fun l => by
    rw [List.map_map]
    rfl
  rw [hmake, hmake, h]

/-- Sources with the same tokens have the same regions but for their places, or what is wrong with
them is the same. -/
lemma regionsOf_of_content (options : Options) (hts : tokens source file = .ok ts)
    (hus : tokens source' file = .ok us) (h : us.map Token.content = ts.map Token.content) :
    (∃ n rs rs', regionsOf options source file = .ok (n, rs) ∧
      regionsOf options source' file = .ok (n, rs') ∧
      rs'.map Tree.unplaced = rs.map Tree.unplaced) ∨
    ∃ f f', regionsOf options source file = .error f ∧ regionsOf options source' file = .error f' ∧
      f'.unplaced = f.unplaced := by
  have hlength : us.length = ts.length := by simpa using congrArg List.length h
  have hmoved := map_relocate_eq h
  obtain ⟨vs, last, rfl, hlast, hvs⟩ := (tokens_eq_ok_iff.mp hts).exists_last
  obtain ⟨ws, last', rfl, hlast', hws⟩ := (tokens_eq_ok_iff.mp hus).exists_last
  let s : Source := ⟨Text.lines source, options.functions⟩
  let s' : Source := ⟨Text.lines source', options.functions⟩
  have hregistry : s.registry = s'.registry := rfl
  have hfirst : IsMoved _ (s.regions (vs ++ [last])) (s.regions _) :=
    isMoved_regions (fun _ => .unknown) rfl hlast hvs
  have hsecond : IsMoved _ (s'.regions (ws ++ [last'])) (s.regions _) :=
    isMoved_regions (fun _ => .unknown) hregistry hlast' hws
  rw [hmoved] at hsecond
  simp only [regionsOf, hts, hus, hlength, ok_bind]
  rcases hfirst.cases_of_both hsecond with ⟨rs, rs', hrs, hrs', hsame⟩ | ⟨f, f', hf, hf', hsame⟩
  · rw [← Tree.unplaced_eq] at hsame
    exact Or.inl ⟨_, rs, rs', by rw [hrs]; rfl, by rw [hrs']; rfl, hsame⟩
  · exact Or.inr ⟨f, f', by rw [hf]; rfl, by rw [hf']; rfl, hsame⟩

/-- Sources with the same regions but for their places are compiled alike. -/
lemma sameOutcome_of_regions {n : Nat} (h : regionsOf options source file = .ok (n, regions))
    (h' : regionsOf options source' file = .ok (n, regions'))
    (hsame : regions'.map Tree.unplaced = regions.map Tree.unplaced) :
    SameOutcome (resultOf options source file) (resultOf options source' file) := by
  have hcomplaints := map_complaint_complaints options hsame
  by_cases hnone : complaints options regions = []
  · have hnone' : complaints options regions' = [] := by
      rw [hnone] at hcomplaints
      exact List.map_eq_nil_iff.mp hcomplaints
    have hlength : regions'.length = regions.length := by simpa using congrArg List.length hsame
    rw [resultOf_of_complaints_eq_nil h hnone, resultOf_of_complaints_eq_nil h' hnone']
    refine .compiled (map_unplaced_outcomes hsame) ?_
    rw [ofSteps_stepsFor hsame, hlength]
  · have hsome : complaints options regions' ≠ [] := by
      intro hnil
      rw [hnil] at hcomplaints
      exact hnone (List.map_eq_nil_iff.mp hcomplaints.symm)
    rw [((resultOf_of_regionsOf h).resolve_left fun h => hnone h.1).2,
      ((resultOf_of_regionsOf h').resolve_left fun h => hsome h.1).2]
    exact sameOutcome_rejected hcomplaints

/-- Sources without regions are reported alike if the same is wrong with them. -/
lemma sameOutcome_of_failure {f f' : Failure} (h : regionsOf options source file = .error f)
    (h' : regionsOf options source' file = .error f') (hsame : f'.unplaced = f.unplaced) :
    SameOutcome (resultOf options source file) (resultOf options source' file) := by
  rcases regionsOf_cases options source file with
    ⟨-, ⟨n, regions, hregions⟩ | ⟨d, hd⟩⟩ | ⟨-, fault, hfault⟩
  · cases hregions.symm.trans h
  · obtain rfl := Except.error.inj (hd.symm.trans h)
    cases f' with
    | diagnostic d' =>
      have hunplaced : Failure.diagnostic ⟨d'.complaint, none, none⟩ =
          .diagnostic ⟨d.complaint, none, none⟩ := hsame
      obtain ⟨hcomplaint, -⟩ := Diagnostic.mk.inj (Failure.diagnostic.inj hunplaced)
      rw [resultOf_of_diagnostic h, resultOf_of_diagnostic h']
      exact sameOutcome_rejected (by simp [hcomplaint])
    | _ => cases hsame
  · obtain rfl := Except.error.inj (hfault.symm.trans h)
    cases f' with
    | numeral fault' =>
      obtain rfl := Failure.numeral.inj hsame
      rw [resultOf_of_numeral h, resultOf_of_numeral h']
      exact .numeral fault'
    | _ => cases hsame

/-- Sources with the same tokens are compiled alike. -/
theorem sameOutcome_of_content (hts : tokens source file = .ok ts)
    (hus : tokens source' file = .ok us) (h : us.map Token.content = ts.map Token.content)
    (options : Options) :
    SameOutcome (resultOf options source file) (resultOf options source' file) := by
  rcases regionsOf_of_content options hts hus h with
    ⟨n, rs, rs', hrs, hrs', hsame⟩ | ⟨f, f', hf, hf', hsame⟩
  · exact sameOutcome_of_regions hrs hrs' hsame
  · exact sameOutcome_of_failure hf hf' hsame

/-- Layout that begins with a blank may be added at the beginning of a source or right behind one of
its tokens. The tokens are the same but for their places, and so is what the source is compiled
to. -/
theorem compile_insert_layout {before after layout : List Char} {c : Char}
    (htokens : tokens source file = .ok ts) (hsource : source.toList = before ++ after)
    (hbehind : ComesBehind source.toList after) (hc : c ∈ [' ', '\t', '\r'])
    (hlayout : IsLayoutText layout) :
    let inserted := String.ofList (before ++ c :: layout ++ after)
    (∃ us, tokens inserted file = .ok us ∧ us.map Token.content = ts.map Token.content) ∧
      ∀ options, SameOutcome (resultOf options source file) (resultOf options inserted file) := by
  intro inserted
  obtain ⟨us, hcontent, hus⟩ := exists_tokens_insert_layout hc hlayout hsource hbehind htokens
  exact ⟨⟨us, hus, hcontent⟩, sameOutcome_of_content htokens hus hcontent⟩

/-- A comment with a quote and a line feed comes between the two characters of `<b`. -/
theorem compile_insert_comment_behind_operator :
    let source := "@a<b"
    let inserted := "@a<\t/* '\n*/b"
    (∃ us, tokens inserted "f.ms" = .ok us ∧ us.map Token.content =
      [(.variable, .text "a"), (.symbol, .text "<"), (.word, .text "b"), (.eof, .null)]) ∧
    ∀ options, SameOutcome (resultOf options source "f.ms") (resultOf options inserted "f.ms") := by
  intro source inserted
  have htokens : tokens source "f.ms" = .ok [⟨.variable, .text "a", ⟨"f.ms", 1, 1⟩⟩,
      ⟨.symbol, .text "<", ⟨"f.ms", 1, 3⟩⟩, ⟨.word, .text "b", ⟨"f.ms", 1, 4⟩⟩,
      ⟨.eof, .null, ⟨"f.ms", 1, 5⟩⟩] := eq_ok_of_toOption (by decide +kernel)
  have hvariable : Lexeme.scan '@' ['a', '<', 'b'] = .ok ⟨.variable, .text "a", 2, by decide⟩ := rfl
  have hoperator : Lexeme.scan '<' ['b'] = .ok ⟨.symbol, .text "<", 1, by decide⟩ := rfl
  have htext : source.toList = ['@', 'a', '<', 'b'] := by decide
  have hbehind : ComesBehind ['@', 'a', '<', 'b'] ['b'] :=
    .lexeme (n := 0) rfl rfl hvariable (.lexeme (n := 0) rfl rfl hoperator (.start _))
  have hbody : ¬['*', '/'] <:+: [' ', '\'', '\n'] ++ ['*'] := by decide
  have hlayout : IsLayoutText ['/', '*', ' ', '\'', '\n', '*', '/'] := .comment hbody .nil
  have hinserted : inserted = String.ofList (['@', 'a', '<'] ++
      '\t' :: ['/', '*', ' ', '\'', '\n', '*', '/'] ++ ['b']) := by decide
  rw [hinserted]
  exact compile_insert_layout htokens htext (htext ▸ hbehind) (by decide) hlayout

end Compiler

end LineScript
