import LineScript.Proofs.Token.Wording
import LineScript.Proofs.Trace
import Mathlib.Data.List.Infix

/-!
# Tokens within their source

A source that can be read is cut into blanks, comments and the texts of its tokens, without anything
left over (`Lexed.tokens_tile_source`). Where a token stands is told by the text before it alone:
its line by the line feeds, its column by what comes behind the last of them.
-/

namespace LineScript

open Text

/-- The place behind a text when the first line has the given number. -/
def placeBehind (file : String) (line : Int) (text : List Char) : Location :=
  ⟨file, line + text.count '\n', 1 + (text.reverse.takeWhile (· ≠ '\n')).length⟩

/-- The first text is a comment if the second one comes behind it. A comment ends before a line feed
or the end of the source, or with the first `*/` behind its own mark. -/
inductive IsComment : List Char → List Char → Prop where
  | hash {body rest : List Char} (hbody : '\n' ∉ body) (hrest : ∀ c ∈ rest.head?, c = '\n') :
      IsComment ('#' :: body) rest
  | slashes {body rest : List Char} (hbody : '\n' ∉ body) (hrest : ∀ c ∈ rest.head?, c = '\n') :
      IsComment ('/' :: '/' :: body) rest
  | block {body : List Char} (rest : List Char) (hbody : ¬['*', '/'] <:+: body ++ ['*']) :
      IsComment ('/' :: '*' :: (body ++ ['*', '/'])) rest

/-- A piece of a source. -/
inductive Piece where
  | blank (c : Char)
  | comment (text : List Char)
  | token (t : Token) (text : List Char)

namespace Piece

/-- The piece as it stands in the source. -/
def text : Piece → List Char
  | blank c => [c]
  | comment text => text
  | token _ text => text

def token? : Piece → Option Token
  | blank _ => none
  | comment _ => none
  | token t _ => some t

/-- The piece is what it claims to be, with one text before it and the other behind it. -/
inductive Fits (file : String) (line : Int) (before after : List Char) : Piece → Prop where
  | blank {c : Char} (h : c ∈ [' ', '\t', '\r']) : Fits file line before after (blank c)
  | comment {text : List Char} (h : IsComment text after) :
      Fits file line before after (comment text)
  | token {t : Token} {text : List Char} (hspells : Spells t.kind t.value text)
      (hplace : t.place = placeBehind file line before)
      (hlongest : t.kind = .symbol → ∀ s, Operator.isKnown s = true → s.toList <+: text ++ after →
        s.length ≤ text.length) : Fits file line before after (token t text)

end Piece

/-- Behind one text and before another each of the pieces fits. -/
def Tiles (file : String) (line : Int) : List Char → List Piece → List Char → Prop
  | _, [], _ => True
  | before, piece :: pieces, after =>
    piece.Fits file line before (pieces.flatMap Piece.text ++ after) ∧
      Tiles file line (before ++ piece.text) pieces after

variable {file : String} {line : Int} {before after text : List Char} {pieces others : List Piece}

lemma tiles_append : Tiles file line before (pieces ++ others) after ↔
    Tiles file line before pieces (others.flatMap Piece.text ++ after) ∧
      Tiles file line (before ++ pieces.flatMap Piece.text) others after := by
  induction pieces generalizing before with
  | nil => simp [Tiles]
  | cons piece pieces ih => simp [Tiles, ih, and_assoc]

/-! ### Places -/

lemma placeBehind_nil : placeBehind file line [] = ⟨file, line, 1⟩ := by
  simp [placeBehind]

lemma Cursor.place_skip {c : Cursor} (h : c.place file = placeBehind file line before) (n : Nat) :
    (c.skip n).place file = placeBehind file line (before ++ c.rest.take n) := by
  induction n generalizing c before with
  | zero => simpa [skip] using h
  | succ n ih =>
    cases hrest : c.rest with
    | nil =>
      have hnext : c.next = c := by simp [next, hrest]
      rw [skip, hnext, ih h, hrest, List.take_nil, List.take_nil]
    | cons d rest =>
      have hplace : c.next.place file = placeBehind file line (before ++ [d]) := by
        simp only [place, placeBehind, Location.mk.injEq, true_and] at h ⊢
        obtain ⟨hline, hcolumn⟩ := h
        by_cases hd : d = '\n'
        · subst hd
          simp [next, hrest, hline, Int.add_assoc]
        · simp [next, hrest, hd, hline, hcolumn]
          omega
      rw [skip, ih hplace, rest_next, hrest]
      simp

/-! ### Gaps -/

namespace Lexeme

variable {n m start : Nat}

lemma exists_body_of_lineComment (h : gapFrom .lineComment n text = .ok m) :
    ∃ body rest, text = body ++ rest ∧ m = n + body.length ∧ '\n' ∉ body ∧
      ∀ c ∈ rest.head?, c = '\n' := by
  induction text generalizing n with
  | nil =>
    rw [gapFrom.eq_def] at h
    exact ⟨[], [], rfl, (Except.ok.inj h).symm, by simp, by simp⟩
  | cons c text ih =>
    rw [gapFrom.eq_def] at h
    by_cases hc : c = '\n'
    · simp only [hc, if_true] at h
      exact ⟨[], c :: text, rfl, (Except.ok.inj h).symm, by simp, by simp [hc]⟩
    · simp only [hc, if_false] at h
      obtain ⟨body, rest, rfl, rfl, hbody, hrest⟩ := ih h
      refine ⟨c :: body, rest, rfl, ?_, by simp [Ne.symm hc, hbody], hrest⟩
      simp only [List.length_cons]
      omega

lemma exists_body_of_blockComment (h : gapFrom (.blockComment start) n text = .ok m) :
    ∃ body rest, text = body ++ '*' :: '/' :: rest ∧ ¬['*', '/'] <:+: body ++ ['*'] ∧
      gapFrom .blanks (n + body.length + 2) rest = .ok m := by
  induction text generalizing n with
  | nil =>
    rw [gapFrom.eq_def] at h
    cases h
  | cons c text ih =>
    by_cases hends : c = '*' ∧ text.head? = some '/'
    · obtain ⟨rfl, hhead⟩ := hends
      obtain ⟨rest, rfl⟩ := List.head?_eq_some_iff.mp hhead
      rw [gapFrom.eq_def] at h
      exact ⟨[], rest, rfl, by decide, h⟩
    · rw [gapFrom_blockComment_cons hends] at h
      obtain ⟨body, rest, rfl, hbody, hgap⟩ := ih h
      refine ⟨c :: body, rest, rfl, ?_, ?_⟩
      · rw [List.cons_append, List.infix_cons_iff, List.cons_prefix_cons]
        rintro (⟨hc, hslash⟩ | hinfix)
        · cases body with
          | nil => simp at hslash
          | cons d body =>
            obtain rfl : '/' = d := by simpa using hslash
            exact hends ⟨hc.symm, rfl⟩
        · exact hbody hinfix
      · rw [List.length_cons, show n + (body.length + 1) + 2 = n + 1 + body.length + 2 by omega]
        exact hgap

end Lexeme

/-- The text begins with blanks and comments of so many characters. -/
def BeginsWithGap (text : List Char) (size : Nat) : Prop :=
  ∃ pieces rest, text = pieces.flatMap Piece.text ++ rest ∧
    size = (pieces.flatMap Piece.text).length ∧ pieces.filterMap Piece.token? = [] ∧
    ∀ file line before, Tiles file line before pieces rest

namespace BeginsWithGap

lemma zero (text : List Char) : BeginsWithGap text 0 :=
  ⟨[], text, rfl, rfl, rfl, fun _ _ _ => trivial⟩

lemma cons (piece : Piece) {size : Nat} (htoken : piece.token? = none)
    (hfits : ∀ file line before, piece.Fits file line before text) (h : BeginsWithGap text size) :
    BeginsWithGap (piece.text ++ text) (piece.text.length + size) := by
  obtain ⟨pieces, rest, rfl, rfl, hnone, htiles⟩ := h
  exact ⟨piece :: pieces, rest, by simp, by simp, by simp [htoken, hnone],
    fun file line before => ⟨hfits file line before, htiles file line _⟩⟩

lemma comment {comment : List Char} {size : Nat} (hcomment : IsComment comment text)
    (h : BeginsWithGap text size) : BeginsWithGap (comment ++ text) (comment.length + size) :=
  cons (.comment comment) rfl (fun _ _ _ => .comment hcomment) h

end BeginsWithGap

/-- A gap is made of blanks and comments. -/
lemma Lexeme.beginsWithGap_of_gapFrom {n m : Nat} (h : gapFrom .blanks n text = .ok m) :
    ∃ size, m = n + size ∧ BeginsWithGap text size := by
  induction hlength : text.length using Nat.strong_induction_on generalizing text n with
  | _ length ih =>
    cases text with
    | nil =>
      rw [gapFrom.eq_def] at h
      exact ⟨0, (Except.ok.inj h).symm, .zero []⟩
    | cons c text =>
      rw [gapFrom.eq_def] at h
      simp only at h
      split_ifs at h with hlayout hhash hslash
      · obtain ⟨size, rfl, hgap⟩ := ih text.length (by simp [← hlength]) h rfl
        refine ⟨1 + size, by omega, .cons (.blank c) rfl (fun _ _ _ => .blank ?_) hgap⟩
        simpa [isLayout, or_assoc] using hlayout
      · obtain ⟨body, rest, rfl, rfl, hbody, hrest⟩ := exists_body_of_lineComment h
        exact ⟨body.length + 1, by omega, hhash ▸ .comment (.hash hbody hrest) (.zero rest)⟩
      · subst hslash
        split at h
        · next text =>
          obtain ⟨body, rest, rfl, rfl, hbody, hrest⟩ := exists_body_of_lineComment h
          exact ⟨body.length + 1 + 1, by omega, .comment (.slashes hbody hrest) (.zero rest)⟩
        · next text =>
          obtain ⟨body, rest, rfl, hbody, hrest⟩ := exists_body_of_blockComment h
          obtain ⟨size, rfl, hgap⟩ := ih rest.length (by simp [← hlength]; omega) hrest rfl
          refine ⟨body.length + 4 + size, by omega, ?_⟩
          simpa using BeginsWithGap.comment (.block rest hbody) hgap
        · exact ⟨0, (Except.ok.inj h).symm, .zero _⟩
      · exact ⟨0, (Except.ok.inj h).symm, .zero _⟩

/-! ### Sources -/

lemma Cursor.exists_tiles_of_gap {c : Cursor} {n : Nat} (h : Lexeme.gap c.rest = .ok n) :
    ∃ pieces, c.rest = pieces.flatMap Piece.text ++ (c.skip n).rest ∧
      c.rest.take n = pieces.flatMap Piece.text ∧ pieces.filterMap Piece.token? = [] ∧
      ∀ file line before, Tiles file line before pieces (c.skip n).rest := by
  obtain ⟨size, hn, pieces, rest, htext, rfl, hnone, htiles⟩ := Lexeme.beginsWithGap_of_gapFrom h
  rw [Nat.zero_add] at hn
  have hrest : (c.skip n).rest = rest := by rw [rest_skip, htext, hn, List.drop_left]
  refine ⟨pieces, by rw [hrest, htext], ?_, hnone, hrest ▸ htiles⟩
  rw [htext, hn, List.take_left]

/-- What has been read up to a cursor and what is read from there on tile the source. -/
lemma Reads.exists_tiles {c : Cursor} {ts : List Token} (h : Reads file c ts) (hline : 1 ≤ line)
    (hplace : c.place file = placeBehind file line before) :
    ∃ pieces, c.rest = pieces.flatMap Piece.text ∧ Tiles file line before pieces [] ∧
      ts = pieces.filterMap Piece.token? ++
        [⟨.eof, .null, placeBehind file line (before ++ c.rest)⟩] := by
  induction h generalizing before with
  | @last c n hgap hrest =>
    obtain ⟨pieces, htext, htake, hnone, htiles⟩ := Cursor.exists_tiles_of_gap hgap
    rw [hrest, List.append_nil] at htext
    refine ⟨pieces, htext, hrest ▸ htiles file line before, ?_⟩
    rw [hnone, Cursor.place_skip hplace, htake, htext]
    rfl
  | @lexeme c n first text lexeme ts hgap hrest hscan h ih =>
    obtain ⟨gap, htext, htake, hnone, htiles⟩ := Cursor.exists_tiles_of_gap hgap
    obtain ⟨read, rest, hread, hsize, hspells⟩ := Lexeme.exists_spells_of_scan hscan
    have hhere := Cursor.place_skip hplace n
    rw [htake] at hhere
    have hafter : ((c.skip n).skip lexeme.size).rest = rest := by
      rw [Cursor.rest_skip, hrest, hread, hsize, List.drop_left]
    have hnext := Cursor.place_skip hhere lexeme.size
    rw [hrest, hread, hsize, List.take_left, ← hsize] at hnext
    obtain ⟨pieces, hpieces, htail, rfl⟩ := ih hnext
    rw [hafter] at hpieces
    have hlinehere : (c.skip n).line ≠ 0 := by
      have hline' : (c.skip n).line = line + (before ++ gap.flatMap Piece.text).count '\n' :=
        congrArg Location.line hhere
      omega
    have hsource : c.rest = gap.flatMap Piece.text ++ (read ++ rest) := by
      rw [htext, hrest, hread]
    refine ⟨gap ++ .token ⟨lexeme.kind, lexeme.value, (c.skip n).place file⟩ read :: pieces, ?_, ?_,
      ?_⟩
    · simp [hsource, hpieces, Piece.text]
    · refine tiles_append.mpr ⟨?_, .token hspells hhere ?_, htail⟩
      · rw [hrest, hread, hpieces] at htiles
        simpa [Piece.text] using htiles file line before
      · intro hkind s hs hbegins
        rw [List.append_nil, ← hpieces, ← hread] at hbegins
        exact hsize ▸ Lexeme.length_le_of_scan hscan hkind hs hbegins
    · rw [Lexed.tokenPlace_eq hlinehere, List.filterMap_append, hnone, hafter, hsource]
      simp [Piece.token?]

lemma Spells.kind_ne_eof {kind : TokenKind} {value : Value} (h : Spells kind value text) :
    kind ≠ .eof := by
  cases h with
  | word name =>
    unfold TokenKind.ofWord
    split_ifs <;> simp
  | delimiter h =>
    rintro rfl
    exact TokenKind.ofDelimiter?_ne (by simp) h
  | _ => simp

/-- A line feed is the only text that stands for the end of a line. -/
lemma Spells.kind_eq_newline_iff {kind : TokenKind} {value : Value} (h : Spells kind value text) :
    kind = .newline ↔ text = ['\n'] := by
  cases h with
  | newline => simp
  | word name =>
    refine iff_of_false ?_ fun htext => ?_
    · unfold TokenKind.ofWord
      split_ifs <;> simp
    · have hfirst : name.first = '\n' := (List.cons.inj htext).1
      exact absurd name.isNameStart_first (by rw [hfirst]; decide)
  | hexadecimal => simp
  | decimal digits =>
    refine iff_of_false (by simp) fun htext => ?_
    exact absurd (digits.isDecimal '\n' (by simp [htext])) (by decide)
  | fraction hwhole hfraction =>
    refine iff_of_false (by simp) fun htext => ?_
    simp [List.append_eq_singleton_iff, hwhole] at htext
  | string => simp
  | atName => simp
  | delimiter h =>
    refine iff_of_false ?_ ?_
    · rintro rfl
      exact TokenKind.ofDelimiter?_ne (by simp) h
    · intro htext
      obtain rfl := List.singleton_inj.mp htext
      cases h
  | symbol h =>
    have hall : ∀ s ∈ Operator.known, s.toList ≠ ['\n'] := by decide
    exact iff_of_false (by simp) (hall _ (by simpa [Operator.isKnown] using h))

lemma Spells.ne_nil {kind : TokenKind} {value : Value} (h : Spells kind value text) :
    text ≠ [] := by
  cases h with
  | word | atName => exact List.cons_ne_nil _ _
  | decimal digits => exact digits.ne_nil
  | fraction hwhole => simp
  | symbol h =>
    have hall : ∀ s ∈ Operator.known, s.toList ≠ [] := by decide
    exact hall _ (by simpa [Operator.isKnown] using h)
  | _ => simp

/-- Before the mark of the end a token stands where its source goes on. -/
lemma exists_place_eq_placeBehind {source : String} {us : List Token} {t last : Token}
    (h : tokens source file = .ok (us ++ [last])) (ht : t ∈ us) : ∃ before rest,
      source.toList = before ++ rest ∧ rest ≠ [] ∧ t.place = placeBehind file 1 before := by
  have hstart : (Cursor.start source.toList 1).place file = placeBehind file 1 [] :=
    placeBehind_nil.symm
  obtain ⟨pieces, hsource, htiles, hts⟩ :=
    (tokens_eq_ok_iff.mp h).exists_tiles (Int.le_refl 1) hstart
  obtain ⟨rfl, -⟩ := List.append_inj' hts rfl
  obtain ⟨piece, hpiece, htoken⟩ := List.mem_filterMap.mp ht
  cases piece with
  | blank | comment => cases htoken
  | token u text =>
    obtain rfl := Option.some.inj htoken
    obtain ⟨before, after, rfl⟩ := List.append_of_mem hpiece
    cases (tiles_append.mp htiles).2.1 with
    | token hspells hplace =>
      have hsource : source.toList = before.flatMap Piece.text ++
          (text ++ after.flatMap Piece.text) := hsource.trans (by simp [Piece.text])
      exact ⟨_, _, hsource, by simp [hspells.ne_nil], by simpa using hplace⟩

/-- The tokens of a source tile it together with the blanks and comments between them. Only the last
one marks the end, and it stands there; the ends of lines are the line feeds outside of comments and
of other tokens. -/
theorem Lexed.tokens_tile_source {source : String} {ts : List Token} (hline : 1 ≤ line)
    (h : (ofSource source file line).result = .ok ts) :
    ∃ pieces, source.toList = pieces.flatMap Piece.text ∧ Tiles file line [] pieces [] ∧
      ts = pieces.filterMap Piece.token? ++ [⟨.eof, .null, placeBehind file line source.toList⟩] ∧
      ∀ t text, .token t text ∈ pieces → t.kind ≠ .eof ∧ (t.kind = .newline ↔ text = ['\n']) := by
  have hstart : (Cursor.start source.toList line).place file = placeBehind file line [] :=
    placeBehind_nil.symm
  obtain ⟨pieces, hsource, htiles, hts⟩ :=
    (result_ofSource_eq_ok_iff.mp h).exists_tiles hline hstart
  refine ⟨pieces, hsource, htiles, hts, fun t text hmem => ?_⟩
  obtain ⟨others, pieces, rfl⟩ := List.append_of_mem hmem
  cases (tiles_append.mp htiles).2.1 with
  | token hspells => exact ⟨hspells.kind_ne_eof, hspells.kind_eq_newline_iff⟩

/-- Comments of both kinds, and a string that goes on in the next line. -/
theorem Lexed.tokens_tile_four_lines :
    ∃ pieces, "@a #x\n/* b\n*/ 'c\\\n' <= 1".toList = pieces.flatMap Piece.text ∧
      Tiles "f.ms" 3 [] pieces [] ∧
      [⟨.variable, .text "a", ⟨"f.ms", 3, 1⟩⟩, ⟨.newline, .null, ⟨"f.ms", 3, 6⟩⟩,
        ⟨.string, .text "c\n", ⟨"f.ms", 5, 4⟩⟩, ⟨.symbol, .text "<=", ⟨"f.ms", 6, 3⟩⟩,
        ⟨.number, .int 1, ⟨"f.ms", 6, 6⟩⟩, ⟨.eof, .null, ⟨"f.ms", 6, 7⟩⟩] =
        pieces.filterMap Piece.token? ++
          [⟨.eof, .null, placeBehind "f.ms" 3 "@a #x\n/* b\n*/ 'c\\\n' <= 1".toList⟩] ∧
      ∀ t text, .token t text ∈ pieces →
        t.kind ≠ .eof ∧ (t.kind = .newline ↔ text = ['\n']) :=
  tokens_tile_source (by decide) (Traced.eq_ok_of_toOption (by decide +kernel))

end LineScript
