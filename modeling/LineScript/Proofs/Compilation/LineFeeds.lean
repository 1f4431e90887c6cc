import LineScript.Proofs.Grouping.InnerLines
import LineScript.Proofs.Token.Tiling

/-!
# The line feeds of a source

Every line feed of a source that can be read stands in a block comment, stands escaped in a string,
or is a token by itself. As a token it ends a region where no group is open: the regions of the
source are those of the tokens before it and then those of the tokens behind it
(`tokens_account_for_line_feeds`).
-/

namespace LineScript

open Text Traced

/-! ### Line feeds in pieces -/

/-- A line feed in a string has a backslash before it that has none before itself. -/
lemma Quotes.exists_of_newline {quote : Char} {chars front back : List Char}
    (h : Quotes quote chars (front ++ '\n' :: back)) :
    ∃ body before behind, front = body ++ ['\\'] ∧ chars = before ++ '\n' :: behind ∧
      Quotes quote before body ∧ Quotes quote behind back := by
  generalize hbody : front ++ '\n' :: back = body at h
  induction h generalizing front with
  | nil => simp at hbody
  | @plain c chars body hquote hnewline hescape h ih =>
    cases front with
    | nil => exact absurd (List.cons.inj hbody).1.symm hnewline
    | cons d front =>
      obtain ⟨rfl, hrest⟩ := List.cons.inj hbody
      obtain ⟨body, before, behind, rfl, rfl, hbefore, hbehind⟩ := ih hrest
      exact ⟨d :: body, d :: before, behind, rfl, rfl,
        .plain hquote hnewline hescape hbefore, hbehind⟩
  | @escaped e chars body h ih =>
    match front with
    | [] => exact absurd (List.cons.inj hbody).1 (by decide)
    | [d] =>
      obtain ⟨rfl, hrest⟩ := List.cons.inj hbody
      obtain ⟨rfl, rfl⟩ := List.cons.inj hrest
      exact ⟨[], [], chars, rfl, rfl, .nil, h⟩
    | d :: d' :: front =>
      simp only [List.cons_append, List.cons.injEq] at hbody
      obtain ⟨rfl, rfl, hrest⟩ := hbody
      obtain ⟨body, before, behind, rfl, rfl, hbefore, hbehind⟩ := ih hrest
      exact ⟨'\\' :: d' :: body, _, behind, rfl, rfl, .escaped d' hbefore, hbehind⟩

namespace Piece

/-- There is a line feed between the two texts in the piece: it is in a block comment, it is escaped
in a string and belongs to its value, or it is the end of a line. -/
inductive HoldsLineFeed : Piece → List Char → List Char → Prop where
  | comment (body body' : List Char) :
      HoldsLineFeed (.comment ('/' :: '*' :: (body ++ '\n' :: (body' ++ ['*', '/']))))
        ('/' :: '*' :: body) (body' ++ ['*', '/'])
  | string {place : Location} {quote : Char} {chars chars' body body' : List Char}
      (h : Quotes quote chars body) (h' : Quotes quote chars' body') :
      HoldsLineFeed (.token ⟨.string, .text (String.ofList (chars ++ '\n' :: chars')), place⟩
        (quote :: (body ++ '\\' :: '\n' :: (body' ++ [quote]))))
        (quote :: (body ++ ['\\'])) (body' ++ [quote])
  | newline {place : Location} : HoldsLineFeed (.token ⟨.newline, .null, place⟩ ['\n']) [] []

variable {file : String} {line : Int} {before after front back text : List Char} {piece : Piece}

lemma holdsLineFeed_of_comment (h : IsComment text after) (htext : text = front ++ '\n' :: back) :
    (Piece.comment text).HoldsLineFeed front back := by
  have hnot : ∀ {body : List Char}, '\n' ∉ body → ∀ marks : List Char, '\n' ∉ marks →
      marks ++ body ≠ front ++ '\n' :: back := by
    intro body hbody marks hmarks heq
    have hmem : '\n' ∈ marks ++ body := by simp [heq]
    simp [hbody, hmarks] at hmem
  cases h with
  | hash hbody hrest => exact absurd htext (hnot hbody ['#'] (by decide))
  | slashes hbody hrest => exact absurd htext (hnot hbody ['/', '/'] (by decide))
  | @block body =>
    match front with
    | [] => exact absurd (List.cons.inj htext).1 (by decide)
    | [d] => exact absurd (List.cons.inj (List.cons.inj htext).2).1 (by decide)
    | d :: d' :: front =>
      simp only [List.cons_append, List.cons.injEq] at htext
      obtain ⟨rfl, rfl, htext⟩ := htext
      -- the marks behind the body have no line feed in them
      rcases List.append_eq_append_iff.mp htext with ⟨middle, rfl, hmiddle⟩ | ⟨middle, rfl, hmiddle⟩
      · have hmem : '\n' ∈ ['*', '/'] := by simp [hmiddle]
        exact absurd hmem (by decide)
      · cases middle with
        | nil => exact absurd (List.cons.inj hmiddle).1 (by decide)
        | cons c middle =>
          obtain ⟨rfl, rfl⟩ := List.cons.inj hmiddle
          simpa using HoldsLineFeed.comment front middle

lemma holdsLineFeed_of_spells {t : Token} (h : Spells t.kind t.value text)
    (htext : text = front ++ '\n' :: back) :
    (Piece.token t text).HoldsLineFeed front back := by
  obtain ⟨kind, value, place⟩ := t
  rcases h.newline_or_string (.inl rfl) (by simp [htext]) with
    ⟨rfl, rfl, rfl⟩ | ⟨quote, chars, body, hquote, hquotes, rfl, rfl, rfl⟩
  · cases front with
    | nil =>
      obtain rfl : [] = back := (List.cons.inj htext).2
      exact .newline
    | cons d front => simp at htext
  · have hne : quote ≠ '\n' := by rcases hquote with rfl | rfl <;> decide
    cases front with
    | nil => exact absurd (List.cons.inj htext).1 hne
    | cons d front =>
      simp only [List.cons_append, List.cons.injEq] at htext
      obtain ⟨rfl, htext⟩ := htext
      obtain ⟨back, rfl, rfl⟩ : ∃ back',
          back = back' ++ [quote] ∧ body = front ++ '\n' :: back' := by
        rcases back.eq_nil_or_concat' with rfl | ⟨back, c, rfl⟩
        · exact absurd (List.cons.inj (List.append_inj' htext rfl).2).1 hne
        · rw [← List.cons_append, ← List.append_assoc] at htext
          obtain ⟨hbody, hc⟩ := List.append_inj' htext rfl
          exact ⟨back, by rw [hc], hbody⟩
      obtain ⟨body, before, behind, rfl, rfl, hbefore, hbehind⟩ := hquotes.exists_of_newline
      simpa using @HoldsLineFeed.string place quote _ _ _ _ hbefore hbehind

lemma Fits.holdsLineFeed (h : piece.Fits file line before after)
    (htext : piece.text = front ++ '\n' :: back) : piece.HoldsLineFeed front back := by
  cases h with
  | @blank c hc =>
    have hmem : '\n' ∈ [c] := by simp [show [c] = front ++ '\n' :: back from htext]
    obtain rfl := List.mem_singleton.mp hmem
    simp at hc
  | comment h => exact holdsLineFeed_of_comment h htext
  | token hspells => exact holdsLineFeed_of_spells hspells htext

end Piece

/-- A character of pieces is one of a single piece. -/
lemma exists_piece_of_append {pieces : List Piece} {before after : List Char} {c : Char}
    (h : pieces.flatMap Piece.text = before ++ c :: after) :
    ∃ others piece behind front back, pieces = others ++ piece :: behind ∧
      piece.text = front ++ c :: back ∧ before = others.flatMap Piece.text ++ front ∧
      after = back ++ behind.flatMap Piece.text := by
  induction pieces generalizing before with
  | nil => simp at h
  | cons piece pieces ih =>
    rw [List.flatMap_cons] at h
    rcases List.append_eq_append_iff.mp h with ⟨middle, rfl, hmiddle⟩ | ⟨middle, hpiece, hmiddle⟩
    · obtain ⟨others, piece', behind, front, back, rfl, htext, rfl, rfl⟩ := ih hmiddle
      exact ⟨piece :: others, piece', behind, front, back, rfl, htext, by simp, rfl⟩
    · cases middle with
      | nil =>
        have hrest : pieces.flatMap Piece.text = [] ++ c :: after := by simpa using hmiddle.symm
        obtain ⟨others, piece', behind, front, back, rfl, htext, hnil, rfl⟩ := ih hrest
        refine ⟨piece :: others, piece', behind, front, back, rfl, htext, ?_, rfl⟩
        rw [List.flatMap_cons, List.append_assoc, ← hnil, hpiece]
        simp
      | cons d middle =>
        obtain ⟨rfl, rfl⟩ := List.cons.inj hmiddle
        exact ⟨[], piece, pieces, before, middle, rfl, hpiece, by simp, rfl⟩

/-! ### Line feeds between regions -/

namespace Grouping

variable {s : Source} {us vs : List Token} {t last : Token} {regions : List Tree}

/-- Where no group is open the end of a line is the end of a region. -/
lemma exists_regions_of_newline (ht : t.kind = .newline) (hlast : last.kind = .eof)
    (hus : ∀ u ∈ us, u.kind ≠ .eof) (hvs : ∀ v ∈ vs, v.kind ≠ .eof)
    (h : s.regions (us ++ t :: vs ++ [last]) = .ok regions) (hdepth : depth 0 us = 0) :
    ∃ rs rs', s.regions (us ++ [last]) = .ok rs ∧ s.regions (vs ++ [last]) = .ok rs' ∧
      regions = rs ++ rs' := by
  have hall : ∀ u ∈ us ++ t :: vs, u.kind ≠ .eof := by
    simp only [List.forall_mem_append, List.forall_mem_cons]
    exact ⟨hus, by simp [ht], hvs⟩
  have hmarks : marks (us ++ t :: vs) = marks us ++ .single t :: marks vs :=
    marks_append_cons (by simp [ht]) (by simp [ht]) (by simp [ht, canLabel]) us vs
  obtain ⟨q, hq, hgroups, rfl⟩ := (Source.regions_eq_ok_iff hall hlast).mp h
  rw [hmarks, List.foldlM_append] at hq
  obtain ⟨p, hp, hq⟩ := bind_eq_ok_iff.mp hq
  have hnone : p.groups = [] := List.length_eq_zero_iff.mp ((length_groups_foldlM hp).trans hdepth)
  obtain ⟨r, hr, hq⟩ := bind_eq_ok_iff.mp hq
  obtain rfl : Progress.start.within p.endRegion.regions [] = r := by
    rw [Source.placeMark, Source.place_of_newline ht, hnone, List.isEmpty_nil, if_pos rfl] at hr
    obtain rfl := Except.ok.inj hr
    obtain ⟨rs, groups, siblings⟩ := p
    obtain rfl : groups = [] := hnone
    cases siblings <;> rfl
  -- the run over the tokens behind it could begin anew
  have hopenings : Progress.start.openings =
      (Progress.start.within p.endRegion.regions []).openings := rfl
  obtain ⟨q', hq', hends⟩ := exists_foldlM_placeMark hopenings hq
  have hgroups' : q'.groups = [] := by
    rw [← openings_eq_nil_iff, hends, openings_eq_nil_iff, hgroups]
  obtain rfl := Except.ok.inj ((foldlM_behind hq' p.endRegion.regions).symm.trans hq)
  refine ⟨_, _, (Source.regions_eq_ok_iff hus hlast).mpr ⟨p, hp, hnone, rfl⟩,
    (Source.regions_eq_ok_iff hvs hlast).mpr ⟨q', hq', hgroups', rfl⟩, ?_⟩
  rw [Progress.endRegion_within]
  simp [Progress.within]

/-- Within a group no script can end. -/
lemma regions_ne_ok_of_depth (hlast : last.kind = .eof) (hus : ∀ u ∈ us, u.kind ≠ .eof)
    (hdepth : depth 0 us ≠ 0) : s.regions (us ++ [last]) ≠ .ok regions := by
  intro h
  obtain ⟨q, hq, hgroups, -⟩ := (Source.regions_eq_ok_iff hus hlast).mp h
  have hlength : q.groups.length = depth 0 us := length_groups_foldlM hq
  exact hdepth (by rw [← hlength, hgroups]; rfl)

end Grouping

open Grouping

/-- A source that can be read is made of blanks, comments and the texts of its tokens. Each line
feed in it is in a block comment, is escaped in a string, or is a token. Such a token ends a region
if no group is open: the regions are those of the tokens before it and those of the tokens behind
it. If a group is open, it is not the end of a region. -/
theorem tokens_account_for_line_feeds {source file : String} {ts : List Token}
    (h : tokens source file = .ok ts) :
    ∃ pieces last, source.toList = pieces.flatMap Piece.text ∧ Tiles file 1 [] pieces [] ∧
      ts = pieces.filterMap Piece.token? ++ [last] ∧
      (∀ before after, source.toList = before ++ '\n' :: after →
        ∃ others piece behind front back, pieces = others ++ piece :: behind ∧
          before = others.flatMap Piece.text ++ front ∧
          after = back ++ behind.flatMap Piece.text ∧ piece.HoldsLineFeed front back) ∧
      ∀ others t text behind, pieces = others ++ .token t text :: behind → t.kind = .newline →
        ∀ (s : Source) (regions : List Tree), s.regions ts = .ok regions →
          let us := others.filterMap Piece.token?
          let vs := behind.filterMap Piece.token?
          (depth 0 us = 0 → ∃ rs rs', s.regions (us ++ [last]) = .ok rs ∧
            s.regions (vs ++ [last]) = .ok rs' ∧ regions = rs ++ rs') ∧
          (depth 0 us ≠ 0 → ∀ rs, s.regions (us ++ [last]) ≠ .ok rs) := by
  have hstart : (Cursor.start source.toList 1).place file = placeBehind file 1 [] :=
    placeBehind_nil.symm
  obtain ⟨pieces, hsource, htiles, rfl⟩ :=
    (tokens_eq_ok_iff.mp h).exists_tiles (Int.le_refl 1) hstart
  have hsource : source.toList = pieces.flatMap Piece.text := hsource
  obtain ⟨hlast, heof⟩ := kind_of_tokens h
  refine ⟨pieces, _, hsource, htiles, rfl, ?_, ?_⟩
  · intro before after hsplit
    obtain ⟨others, piece, behind, front, back, rfl, htext, rfl, rfl⟩ :=
      exists_piece_of_append (hsource.symm.trans hsplit)
    exact ⟨others, piece, behind, front, back, rfl, rfl, rfl,
      (tiles_append.mp htiles).2.1.holdsLineFeed htext⟩
  · rintro others t text behind rfl ht s regions hregions us vs
    have hsplit : (others ++ .token t text :: behind).filterMap Piece.token? = us ++ t :: vs := by
      simp [us, vs, Piece.token?]
    rw [hsplit] at hregions heof
    simp only [List.forall_mem_append, List.forall_mem_cons] at heof
    exact ⟨exists_regions_of_newline ht hlast heof.1 heof.2.2 hregions,
      fun hdepth rs => regions_ne_ok_of_depth hlast heof.1 hdepth⟩

/-- Line feeds in a comment, in a group, in a string and between two regions. -/
theorem tokens_account_for_four_line_feeds :
    let source := "/*\n*/ (@a\n) 'b\\\nc'\n@d"
    let token (kind : TokenKind) (value : Value) (line column : Int) : Token :=
      ⟨kind, value, ⟨"f.ms", line, column⟩⟩
    let ts := [token .leftParen (.text "(") 2 4, token .variable (.text "a") 2 5,
      token .newline .null 2 7, token .rightParen (.text ")") 3 1,
      token .string (.text "b\nc") 3 3, token .newline .null 4 3,
      token .variable (.text "d") 5 1, token .eof .null 5 3]
    tokens source "f.ms" = .ok ts ∧
      ((Source.mk [] .empty).regions ts).toOption.map List.length = some 2 ∧
      ∃ pieces last, source.toList = pieces.flatMap Piece.text ∧ Tiles "f.ms" 1 [] pieces [] ∧
        ts = pieces.filterMap Piece.token? ++ [last] ∧
        (∀ before after, source.toList = before ++ '\n' :: after →
          ∃ others piece behind front back, pieces = others ++ piece :: behind ∧
            before = others.flatMap Piece.text ++ front ∧
            after = back ++ behind.flatMap Piece.text ∧ piece.HoldsLineFeed front back) ∧
        ∀ others t text behind, pieces = others ++ .token t text :: behind → t.kind = .newline →
          ∀ (s : Source) (regions : List Tree), s.regions ts = .ok regions →
            let us := others.filterMap Piece.token?
            let vs := behind.filterMap Piece.token?
            (depth 0 us = 0 → ∃ rs rs', s.regions (us ++ [last]) = .ok rs ∧
              s.regions (vs ++ [last]) = .ok rs' ∧ regions = rs ++ rs') ∧
            (depth 0 us ≠ 0 → ∀ rs, s.regions (us ++ [last]) ≠ .ok rs) := by
  intro source token ts
  have htokens : tokens source "f.ms" = .ok ts := eq_ok_of_toOption (by decide +kernel)
  exact ⟨htokens, by rfl, tokens_account_for_line_feeds htokens⟩

/-- A string goes on behind a line feed that is escaped, and this is no token. -/
theorem tokens_string_of_two_lines :
    ¬∀ (source file : String) (ts : List Token) (pieces : List Piece) (last : Token),
      tokens source file = .ok ts → source.toList = pieces.flatMap Piece.text →
      Tiles file 1 [] pieces [] → ts = pieces.filterMap Piece.token? ++ [last] →
      ∀ t text, .token t text ∈ pieces → t.kind = .string → '\n' ∉ text := by
  intro hclaim
  let t : Token := ⟨.string, .text "a\nb", ⟨"f.ms", 1, 1⟩⟩
  let last : Token := ⟨.eof, .null, ⟨"f.ms", 2, 3⟩⟩
  let text : List Char := "'a\\\nb'".toList
  have htokens : tokens "'a\\\nb'" "f.ms" = .ok [t, last] := eq_ok_of_toOption (by decide +kernel)
  have hquotes : Quotes '\'' ['a', '\n', 'b'] ['a', '\\', '\n', 'b'] :=
    .plain (by decide) (by decide) (by decide)
      (.escaped '\n' (.plain (by decide) (by decide) (by decide) .nil))
  have hspells : Spells t.kind t.value text := .string (Or.inl rfl) hquotes
  have htiles : Tiles "f.ms" 1 [] [.token t text] [] :=
    ⟨.token hspells rfl fun hkind => absurd hkind (by decide), trivial⟩
  have hnot := hclaim _ _ _ [.token t text] last htokens (by simp [Piece.text, text]) htiles rfl
    t text (List.mem_singleton_self _) rfl
  exact hnot (by decide)

end LineScript
