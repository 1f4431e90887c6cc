import LineScript.Proofs.Compilation.Outcome
import LineScript.Proofs.Grouping.Relocation
import LineScript.Proofs.Finishing.Relocation
import LineScript.Proofs.Text.Lines
import LineScript.Proofs.Token.Tiling

/-!
# The lines that diagnostics show

Every diagnostic about a source that can be read is about one of its tokens, and it shows a line.
The number of the line is told by the line feeds before the token, but the line is looked up among
those for display. It is the line of the token just if neither this line nor one before it has
another boundary (`rejected_shows_lines`).
-/

namespace LineScript

open Traced

/-! ### The token that is blamed -/

namespace Grouping

variable {s : Source} {ts : List Token} {last : Token} {regions : List Tree}
  {φ : Location → Location}

/-- The diagnostic is about the place of the token, and shows no line or the one of this number. -/
structure IsAbout (lines : List String) (t : Token) (d : Diagnostic) : Prop where
  place : d.place = some t.place
  sourceLine : d.sourceLine = none ∨ d.sourceLine = Text.line? lines t.place.line

lemma isAbout_of_complain {t : Token} {fault : SyntaxFault} {d : Diagnostic}
    {r : Except Failure (List Tree)} (h : r = s.complain fault t.place)
    (hd : r = .error (.diagnostic d)) : IsAbout s.lines t d := by
  obtain rfl := Failure.diagnostic.inj (Except.error.inj (hd.symm.trans h))
  exact ⟨rfl, Or.inr rfl⟩

lemma openedBy_mem {pre post : List Token} {t : Token} :
    openedBy pre.getLast? t ∈ pre ++ t :: post := by
  unfold openedBy
  cases hlast : pre.getLast? with
  | none => simp
  | some name =>
    dsimp only
    split_ifs
    · exact List.mem_append_left _ (List.mem_of_getLast? hlast)
    · simp

/-- What is wrong with the groups of a script is wrong at one of its tokens. -/
lemma exists_isAbout_of_regions (hlast : last.kind = .eof) (heof : ∀ t ∈ ts, t.kind ≠ .eof)
    (hnumbers : HasLargeNumbersOnly ts) {d : Diagnostic}
    (h : s.regions (ts ++ [last]) = .error (.diagnostic d)) : ∃ t ∈ ts, IsAbout s.lines t d := by
  by_cases hwritable : ∀ m ∈ marks ts, m.IsWritable
  · have hend := agreesAtEnd_of_isWritable (s := s) hlast heof hwritable
    cases hscan : scan [] none ts with
    | error t =>
      rw [hscan] at hend
      obtain ⟨pre, post, rfl, -⟩ := exists_refused hscan
      exact ⟨t, by simp, isAbout_of_complain hend h⟩
    | ok stack =>
      rw [hscan] at hend
      cases stack with
      | nil =>
        obtain ⟨regions, hregions⟩ := hend
        cases hregions.symm.trans h
      | cons x stack =>
        obtain ⟨o, closer⟩ := x
        obtain ⟨pre, t, name, post, rfl, -, -, rfl⟩ :=
          exists_opener_of_unclosed (Unclosed.of_scan hscan)
        exact ⟨_, openedBy_mem, isAbout_of_complain hend h⟩
  · obtain ⟨pre, t, u, post, rfl, hlarge, hu, hpre⟩ := exists_first_label hnumbers hwritable
    have ht := hnumbers t (by simp) hlarge
    have hregions := regions_of_first_label (s := s) hlast heof ht hlarge hu hpre
    cases hscan : scan [] none pre with
    | ok stack =>
      rw [hscan] at hregions
      cases hregions.symm.trans h
    | error v =>
      rw [hscan] at hregions
      obtain ⟨before, behind, rfl, -⟩ := exists_refused hscan
      exact ⟨v, by simp, isAbout_of_complain hregions h⟩

/-- All places in the regions of a script are places of its tokens: where none of these is moved,
nothing is. -/
lemma relocate_eq_self_of_mem_regions (hlast : last.kind = .eof) (heof : ∀ t ∈ ts, t.kind ≠ .eof)
    (h : s.regions (ts ++ [last]) = .ok regions) (hφ : ∀ t ∈ ts, φ t.place = t.place) :
    ∀ region ∈ regions, region.relocate φ = region := by
  have hts : ts.map (Token.relocate φ) = ts := by
    refine (List.map_congr_left fun t ht => ?_).trans (List.map_id ts)
    rw [Token.relocate, hφ t ht]
    rfl
  have hregistry : s.registry = s.registry := rfl
  have hmoved := regions_relocate φ hregistry hlast heof h
  have hlast' : (last.relocate φ).kind = .eof := hlast
  rw [List.map_append, hts, List.map_singleton] at hmoved
  obtain ⟨q, hq, -, hregions⟩ := (Source.regions_eq_ok_iff heof hlast).mp h
  obtain ⟨q', hq', -, hregions'⟩ := (Source.regions_eq_ok_iff heof hlast').mp hmoved
  obtain rfl := Except.ok.inj (hq.symm.trans hq')
  have hsame : regions.map (Tree.relocate φ) = regions.map id := by
    rw [hregions', List.map_id, hregions]
  exact List.map_eq_map_iff.mp hsame

/-- What is wrong with a region is wrong at a token of the script. -/
lemma exists_isAbout_of_finish {d : Dialect} {source file : String} {region : Tree} {e : Diagnostic}
    (hregistry : d.registry = s.registry) (htokens : tokens source file = .ok (ts ++ [last]))
    (hregions : s.regions (ts ++ [last]) = .ok regions) (hregion : region ∈ regions)
    (h : (region.finish d).result = .error (.diagnostic e)) (lines : List String) :
    ∃ t ∈ ts, IsAbout lines t e := by
  obtain ⟨hlast, heof⟩ := kind_of_tokens htokens
  obtain ⟨c, p, he, -⟩ :=
    (Tree.delivers_finish_region hregistry htokens hregions hregion).eq_of h
  obtain rfl := Failure.diagnostic.inj he
  by_contra hnone
  -- otherwise the blamed place could be moved with nothing else
  let φ : Location → Location := fun q => if q = p then ⟨p.file, p.line + 1, p.column⟩ else q
  have hfixed : ∀ t ∈ ts, φ t.place = t.place := fun t ht =>
    if_neg fun heq => hnone ⟨t, ht, by rw [heq]; rfl, Or.inl rfl⟩
  have hsame := relocate_eq_self_of_mem_regions hlast heof hregions hfixed region hregion
  have hmoved := congrArg Traced.result (Tree.finish_relocate (φ := φ) d region)
  rw [hsame, relocate, h] at hmoved
  have hplace : p = φ p := by
    have hdiagnostic := Failure.diagnostic.inj (Except.error.inj hmoved)
    exact Option.some.inj (congrArg Diagnostic.place hdiagnostic)
  rw [show φ p = ⟨p.file, p.line + 1, p.column⟩ from if_pos rfl] at hplace
  have hline := congrArg Location.line hplace
  dsimp only at hline
  omega

end Grouping

/-! ### The line that is shown -/

namespace Compiler

open Grouping

variable {options : Options} {source file report : String} {ts : List Token} {last : Token}
  {e : Diagnostic} {ds : List Diagnostic}

/-- Only what is finished is complained about. -/
lemma result_finish_of_complaint {region : Tree}
    (h : complaint? (treat options region) = some e) :
    (region.finish options.dialect).result = .error (.diagnostic e) := by
  unfold complaint? treat at h
  split_ifs at h
  split at h
  · next hresult =>
    obtain rfl := Option.some.inj h
    exact hresult
  · cases h

/-- Each diagnostic of a source that can be read is about one of its tokens. -/
lemma exists_isAbout_of_rejected (htokens : tokens source file = .ok (ts ++ [last]))
    (h : resultOf options source file = .error (.rejected report ds)) (he : e ∈ ds) :
    ∃ t ∈ ts, ∃ d, IsAbout (Text.lines source) t d ∧
      e = (collectorFor options source).attach d := by
  have hreads := tokens_eq_ok_iff.mp htokens
  obtain ⟨hlast, heof⟩ := kind_of_tokens htokens
  have hnumbers : HasLargeNumbersOnly ts := fun t ht hlarge =>
    hreads.kind_of_isTooLarge (List.mem_append_left _ ht) hlarge
  have hcollected : ∀ {ds'}, (reporter options source ds').collected = ds →
      ∃ d ∈ ds', e = (collectorFor options source).attach d := by
    rintro ds' rfl
    rw [reporter_eq] at he
    obtain ⟨d, hd, rfl⟩ := List.mem_map.mp he
    exact ⟨d, List.mem_of_mem_take hd, rfl⟩
  rcases regionsOf_cases options source file with
    ⟨-, ⟨n, regions, hregions⟩ | ⟨d, hd⟩⟩ | ⟨-, fault, hfault⟩
  · rcases resultOf_of_regionsOf hregions with ⟨-, compiled, hcompiled, -⟩ | ⟨-, hrejected⟩
    · cases hcompiled.symm.trans h
    · have hds := Except.error.inj (hrejected.symm.trans h)
      obtain ⟨d, hd, rfl⟩ := hcollected (Failure.rejected.inj hds).2
      obtain ⟨region, hregion, hcomplaint⟩ := List.mem_filterMap.mp hd
      rw [regionsOf, htokens, ok_bind] at hregions
      obtain ⟨rs, hrs, hregions⟩ := bind_eq_ok_iff.mp hregions
      obtain ⟨-, rfl⟩ := Prod.mk.inj (Except.ok.inj hregions)
      obtain ⟨t, ht, habout⟩ := exists_isAbout_of_finish (d := options.dialect) rfl htokens hrs
        hregion (result_finish_of_complaint hcomplaint) (Text.lines source)
      exact ⟨t, ht, d, habout, rfl⟩
  · have hds := Except.error.inj ((resultOf_of_diagnostic hd).symm.trans h)
    obtain ⟨d', hd', rfl⟩ := hcollected (Failure.rejected.inj hds).2
    obtain rfl := List.mem_singleton.mp hd'
    rw [regionsOf, htokens, ok_bind] at hd
    have hgrouping : (Source.mk (Text.lines source) options.functions).regions (ts ++ [last]) =
        .error (.diagnostic d') := by
      cases hresult : (Source.mk (Text.lines source) options.functions).regions (ts ++ [last]) with
      | ok rs =>
        rw [hresult] at hd
        cases hd
      | error f =>
        rw [hresult] at hd
        exact congrArg Except.error (Except.error.inj hd)
    obtain ⟨t, ht, habout⟩ := exists_isAbout_of_regions hlast heof hnumbers hgrouping
    exact ⟨t, ht, d', habout, rfl⟩
  · cases (resultOf_of_numeral hfault).symm.trans h

/-- What is collected shows the line with the number of its place, if there is one. -/
lemma attach_eq (options : Options) {t : Token} {d : Diagnostic} {line : String}
    (h : IsAbout (Text.lines source) t d)
    (hline : Text.line? (Text.lines source) t.place.line = some line) :
    ((collectorFor options source).attach d).place = some t.place ∧
      ((collectorFor options source).attach d).sourceLine = some line := by
  obtain ⟨hplace, hnone | hsome⟩ := h
  · have hlines : Text.line? (collectorFor options source).lines t.place.line = some line := hline
    simp [Collector.attach, hplace, hnone, hlines, Diagnostic.withSourceLine]
  · rw [hline] at hsome
    rw [Collector.attach_of_sourceLine hsome]
    exact ⟨hplace, hsome⟩

/-- Every diagnostic of a source that can be read is about a token and shows a line. If no line
before that of the token has another boundary than a carriage return at its end, this is the line of
the token up to its first boundary, and so it is the whole line just if the line has no other one
either. Otherwise it stands further up. -/
theorem rejected_shows_lines (htokens : tokens source file = .ok ts)
    (h : resultOf options source file = .error (.rejected report ds)) :
    ∀ e ∈ ds, ∃ t ∈ ts, ∃ lines line later shown,
      t.kind ≠ .eof ∧ e.place = some t.place ∧ e.sourceLine = some (String.ofList shown) ∧
      source.toList.splitOn '\n' = lines ++ line :: later ∧ t.place.line = lines.length + 1 ∧
      1 ≤ t.place.column ∧ t.place.column ≤ line.length + 1 ∧
      ((∀ l ∈ lines, Text.IsPlain l) →
        shown = Text.upToBoundary line ∧ (Text.IsShown shown line ↔ Text.IsPlain line)) ∧
      ((¬∀ l ∈ lines, Text.IsPlain l) →
        shown ∈ Text.linesAfter [] false (Text.ended lines)) := by
  intro e he
  obtain ⟨us, last, rfl, -, heof⟩ := (tokens_eq_ok_iff.mp htokens).exists_last
  obtain ⟨t, ht, d, habout, rfl⟩ := exists_isAbout_of_rejected htokens h he
  obtain ⟨before, rest, hsource, hrest, hplace⟩ := exists_place_eq_placeBehind htokens ht
  obtain ⟨lines, line, later, shown, hsplit, hcount, hcolumn, hshown, hplain, hnot⟩ :=
    Text.exists_line_shown before hrest
  have hnumber : t.place.line = lines.length + 1 := by
    rw [hplace, placeBehind, hcount]
    exact Int.add_comm _ _
  have hline : Text.line? (Text.lines source) t.place.line = some (String.ofList shown) := by
    rw [Text.line?, hnumber, if_pos (by omega), Text.lines, hsource]
    simp [hshown]
  obtain ⟨hattached, hsourceLine⟩ := attach_eq options habout hline
  have hcolumn' : t.place.column =
      1 + ((before.reverse.takeWhile (· ≠ '\n')).length : Int) := by rw [hplace, placeBehind]
  refine ⟨t, List.mem_append_left _ ht, lines, line, later, shown, heof t ht, hattached,
    hsourceLine, hsource ▸ hsplit, hnumber, by omega, by omega, fun hall => ?_, hnot⟩
  obtain rfl := hplain hall
  exact ⟨rfl, Text.isPlain_iff.symm⟩

/-- The diagnostics of a rejected compilation can be told without its report. -/
lemma exists_rejected (options : Options) (source file : String) (ds : List Diagnostic)
    (h : (match resultOf options source file with
      | .error (.rejected _ es) => decide (es = ds)
      | _ => false) = true) :
    ∃ report, resultOf options source file = .error (.rejected report ds) := by
  split at h
  · next report es hresult =>
    obtain rfl := of_decide_eq_true h
    exact ⟨report, hresult⟩
  · cases h

/-- In a script with carriage returns before its line feeds the second line is shown without one. -/
theorem rejected_shows_second_line :
    let options : Options := {}
    let source := "@a\r\n3 *\r\n"
    let e : Diagnostic := ⟨.misplacedSymbol "*", some ⟨"f.ms", 2, 3⟩, some "3 *"⟩
    ∃ ts report, tokens source "f.ms" = .ok ts ∧
      resultOf options source "f.ms" = .error (.rejected report [e]) ∧
      ∃ t ∈ ts, ∃ lines line later shown,
        t.kind ≠ .eof ∧ e.place = some t.place ∧ e.sourceLine = some (String.ofList shown) ∧
        source.toList.splitOn '\n' = lines ++ line :: later ∧ t.place.line = lines.length + 1 ∧
        1 ≤ t.place.column ∧ t.place.column ≤ line.length + 1 ∧
        ((∀ l ∈ lines, Text.IsPlain l) →
          shown = Text.upToBoundary line ∧ (Text.IsShown shown line ↔ Text.IsPlain line)) ∧
        ((¬∀ l ∈ lines, Text.IsPlain l) →
          shown ∈ Text.linesAfter [] false (Text.ended lines)) := by
  intro options source e
  have hreads : (tokens source "f.ms").toOption.isSome = true := by decide +kernel
  obtain ⟨ts, htokens⟩ := Option.isSome_iff_exists.mp hreads
  have htokens := eq_ok_of_toOption htokens
  obtain ⟨report, hrejected⟩ :=
    exists_rejected options source "f.ms" [e] (by decide +kernel)
  exact ⟨ts, report, htokens, hrejected,
    rejected_shows_lines htokens hrejected e (List.mem_singleton_self e)⟩

/-- In a script of one line that has a form feed the line is shown up to there only, though the
diagnostic is about a symbol behind it. -/
theorem rejected_form_feed :
    ¬∀ (options : Options) (source file report : String) (ts : List Token) (ds : List Diagnostic),
      tokens source file = .ok ts → resultOf options source file = .error (.rejected report ds) →
      ∀ e ∈ ds, ∃ p line shown, e.place = some p ∧ e.sourceLine = some (String.ofList shown) ∧
        (source.toList.splitOn '\n')[(p.line - 1).toNat]? = some line ∧
        Text.IsShown shown line := by
  intro hclaim
  let e : Diagnostic := ⟨.misplacedSymbol "+", some ⟨"f.ms", 1, 5⟩, some "'"⟩
  have hreads : (tokens "'\x0c' +" "f.ms").toOption.isSome = true := by decide +kernel
  obtain ⟨ts, htokens⟩ := Option.isSome_iff_exists.mp hreads
  obtain ⟨report, hrejected⟩ :=
    exists_rejected {} "'\x0c' +" "f.ms" [e] (by decide +kernel)
  obtain ⟨p, line, shown, hplace, hsourceLine, hline, hshown⟩ :=
    hclaim {} _ _ _ _ _ (eq_ok_of_toOption htokens) hrejected e (List.mem_singleton_self e)
  obtain rfl := Option.some.inj hplace
  have hquote : shown = ['\''] := by
    have htext := congrArg String.toList (Option.some.inj hsourceLine)
    simpa using htext.symm
  have hwhole : (("'\x0c' +".toList.splitOn '\n')[((1 : Int) - 1).toNat]?) =
      some ['\'', '\x0c', '\'', ' ', '+'] := by decide +kernel
  obtain rfl := Option.some.inj (hline.symm.trans hwhole)
  rw [hquote] at hshown
  revert hshown
  simp [Text.IsShown]

end Compiler

end LineScript
