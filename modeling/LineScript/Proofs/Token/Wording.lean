import LineScript.Proofs.Token.Numeral
import LineScript.Proofs.Token.Vocabulary

/-!
# The texts of tokens

`Spells` says which texts stand for a token of a kind and with a value. Whatever is read as a lexeme
spells it (`Lexeme.exists_spells_of_scan`), and what spells a token is read as that token in front
of every break (`Spells.isReadAs`). Of symbols more is known: the one that is read is the longest
that the text begins with (`Lexeme.length_le_of_scan`). Texts of several tokens are put together
from those of single ones (`SpelledAs`).
-/

namespace LineScript

open Text

/-! ### Strings -/

/-- The characters of a string, and what they are written as between two quotes. A backslash takes
away the meaning of the character behind it or gives it another one. -/
inductive Quotes (quote : Char) : List Char → List Char → Prop where
  | nil : Quotes quote [] []
  | plain {c : Char} {chars body : List Char} (hquote : c ≠ quote) (hnewline : c ≠ '\n')
      (hescape : c ≠ '\\') (h : Quotes quote chars body) : Quotes quote (c :: chars) (c :: body)
  | escaped (e : Char) {chars body : List Char} (h : Quotes quote chars body) :
      Quotes quote (Lexeme.unescape e :: chars) ('\\' :: e :: body)

namespace Quotes

variable {quote : Char} {chars body text : List Char} {size : Nat}

lemma stringBody_append (h : Quotes quote chars body) (hquote : '\\' ≠ quote)
    (rest : List Char) :
    Lexeme.stringBody quote (body ++ quote :: rest) = .ok (chars, body.length + 1) := by
  induction h with
  | nil =>
    rw [List.nil_append, Lexeme.stringBody.eq_def]
    simp
  | plain hq hnewline hescape h ih =>
    rw [List.cons_append, Lexeme.stringBody.eq_def]
    simp [hq, hnewline, hescape, ih]
  | escaped e h ih =>
    rw [List.cons_append, List.cons_append, Lexeme.stringBody.eq_def]
    simp [hquote, ih]

lemma exists_of_stringBody (h : Lexeme.stringBody quote text = .ok (chars, size)) :
    ∃ body rest, text = body ++ quote :: rest ∧ size = body.length + 1 ∧
      Quotes quote chars body := by
  fun_induction Lexeme.stringBody quote text generalizing chars size with
  | case1 | case3 | case4 | case6 | case8 => cases h
  | case2 text =>
    obtain ⟨rfl, rfl⟩ := Prod.mk.inj (Except.ok.inj h)
    exact ⟨[], text, rfl, rfl, .nil⟩
  | case5 e text chars size hbody hquote hnewline ih =>
    obtain ⟨rfl, rfl⟩ := Prod.mk.inj (Except.ok.inj h)
    obtain ⟨body, rest, rfl, rfl, hquotes⟩ := ih hbody
    exact ⟨'\\' :: e :: body, rest, rfl, rfl, .escaped e hquotes⟩
  | case7 c text hquote hnewline hescape chars size hbody ih =>
    obtain ⟨rfl, rfl⟩ := Prod.mk.inj (Except.ok.inj h)
    obtain ⟨body, rest, rfl, rfl, hquotes⟩ := ih hbody
    exact ⟨c :: body, rest, rfl, rfl, .plain hquote hnewline hescape hquotes⟩

end Quotes

/-! ### All texts -/

/-- The text stands for a token of the kind with the value. -/
inductive Spells : TokenKind → Value → List Char → Prop where
  | newline : Spells .newline .null ['\n']
  | word (name : VarName) : Spells (.ofWord name.text) (.text name.text) name.chars
  | hexadecimal {mark : Char} {digits : List Char} (hmark : mark = 'x' ∨ mark = 'X')
      (hne : digits ≠ []) (hdigits : ∀ c ∈ digits, (hexDigitValue? c).isSome = true) :
      Spells .number (.int (ofDigits 16 (digits.filterMap hexDigitValue?))) ('0' :: mark :: digits)
  | decimal (digits : Digits) : Spells .number (.int digits.value) digits.chars
  | fraction {whole fraction : List Char} {x : Binary64} (hwhole : whole ≠ [])
      (hfraction : fraction ≠ []) (hread : Numeral.readFloat whole fraction = .ok x) :
      Spells .number (.float x) (whole ++ '.' :: fraction)
  | string {quote : Char} {chars body : List Char} (hquote : quote = '\'' ∨ quote = '"')
      (h : Quotes quote chars body) :
      Spells .string (.text (String.ofList chars)) (quote :: (body ++ [quote]))
  | atName (name : VarName) : Spells .variable (.text name.text) ('@' :: name.chars)
  | delimiter {c : Char} {kind : TokenKind} (h : TokenKind.ofDelimiter? c = some kind) :
      Spells kind (.text (String.ofList [c])) [c]
  | symbol {s : String} (h : Operator.isKnown s = true) : Spells .symbol (.text s) s.toList

lemma Spells.of_isNameText {s : String} (h : VarName.isNameText s = true) :
    Spells (.ofWord s) (.text s) s.toList := by
  obtain ⟨name, rfl, hchars⟩ := VarName.exists_of_isNameText h
  exact hchars ▸ .word name

/-- A token with a line feed or a backslash in its text is the end of a line or a string. -/
lemma Spells.newline_or_string {kind : TokenKind} {value : Value} {text : List Char} {c : Char}
    (h : Spells kind value text) (hc : c = '\n' ∨ c = '\\') (hmem : c ∈ text) :
    (kind = .newline ∧ value = .null ∧ text = ['\n']) ∨
      ∃ quote chars body, (quote = '\'' ∨ quote = '"') ∧ Quotes quote chars body ∧
        kind = .string ∧ value = .text (String.ofList chars) ∧
        text = quote :: (body ++ [quote]) := by
  have hname : Lexeme.isNameChar c = false := by rcases hc with rfl | rfl <;> decide
  have hdigit : digitValue? c = none := by rcases hc with rfl | rfl <;> decide
  have hhexDigit : hexDigitValue? c = none := by rcases hc with rfl | rfl <;> decide
  have hmarks : c ∉ ['x', 'X', '0', '.', '@'] := by rcases hc with rfl | rfl <;> decide
  simp only [List.mem_cons, List.not_mem_nil, or_false, not_or] at hmarks
  cases h with
  | newline => exact .inl ⟨rfl, rfl, rfl⟩
  | string hquote hquotes => exact .inr ⟨_, _, _, hquote, hquotes, rfl, rfl, rfl⟩
  | word name => simp [name.isNameChar_chars _ hmem] at hname
  | @hexadecimal mark digits hmark hne hdigits =>
    have hdigits' : c ∈ digits := by rcases hmark with rfl | rfl <;> simpa [hmarks] using hmem
    simpa [hhexDigit] using hdigits _ hdigits'
  | decimal digits => simpa [hdigit] using digits.isDecimal _ hmem
  | @fraction whole fraction x hwhole hfraction hread =>
    have hdecimal := (Numeral.exists_readFloat_iff whole fraction).mp ⟨x, hread⟩
    have hpart : c ∈ whole ++ fraction := by simpa [hmarks] using hmem
    simpa [hdigit] using hdecimal _ hpart
  | atName name =>
    have hchars : c ∈ name.chars := by simpa [hmarks] using hmem
    simp [name.isNameChar_chars _ hchars] at hname
  | delimiter h =>
    obtain rfl := List.mem_singleton.mp hmem
    rcases hc with rfl | rfl <;> cases h
  | symbol h =>
    have hall : ∀ s ∈ Operator.known, '\n' ∉ s.toList ∧ '\\' ∉ s.toList := by decide
    have hs := hall _ (by simpa [Operator.isKnown] using h)
    rcases hc with rfl | rfl
    · exact absurd hmem hs.1
    · exact absurd hmem hs.2

/-! ### What is read -/

namespace Lexeme

variable {first mark quote : Char} {text : List Char} {lexeme : Lexeme}

lemma exists_spells_of_hexadecimal (hmark : mark = 'x' ∨ mark = 'X')
    (h : hexadecimal text = .ok lexeme) : ∃ read rest, '0' :: mark :: text = read ++ rest ∧
      lexeme.size = read.length ∧ Spells lexeme.kind lexeme.value read := by
  simp only [hexadecimal] at h
  split_ifs at h with hempty
  obtain rfl := Except.ok.inj h
  have hdigits : ∀ c ∈ text.takeWhile fun c => (hexDigitValue? c).isSome,
      (hexDigitValue? c).isSome = true := fun c hc =>
    List.mem_takeWhile_imp (p := fun c => (hexDigitValue? c).isSome) hc
  exact ⟨_, _, congrArg ('0' :: mark :: ·) List.takeWhile_append_dropWhile.symm, rfl,
    .hexadecimal hmark (by simpa using hempty) hdigits⟩

lemma exists_spells_of_decimal {hpos : 0 < (text.takeWhile isDigit).length}
    (h : decimal text hpos = .ok lexeme) : ∃ read rest, text = read ++ rest ∧
      lexeme.size = read.length ∧ Spells lexeme.kind lexeme.value read := by
  have hsplit := (List.takeWhile_append_dropWhile (p := isDigit) (l := text)).symm
  have hwhole : text.takeWhile isDigit ≠ [] := List.length_pos_iff.mp hpos
  by_cases hnil : fractionOf text = []
  · rw [decimal_of_integer hpos hnil] at h
    cases hread : Numeral.readNatural (text.takeWhile isDigit) with
    | error fault => simp [hread, Except.map, Except.mapError] at h
    | ok n =>
      obtain ⟨hdecimal, hlength⟩ := (Numeral.exists_readNatural_iff _).mp ⟨n, hread⟩
      let digits : Digits := ⟨_, hwhole, hdecimal, hlength⟩
      obtain rfl : digits.value = n :=
        Except.ok.inj (digits.readNatural_chars.symm.trans hread)
      rw [hread] at h
      obtain rfl := Except.ok.inj h
      exact ⟨_, _, hsplit, rfl, .decimal digits⟩
  · rw [decimal_of_fraction hpos hnil] at h
    cases hread : Numeral.readFloat (text.takeWhile isDigit) (fractionOf text) with
    | error fault => simp [hread, Except.map, Except.mapError] at h
    | ok x =>
      rw [hread] at h
      obtain rfl := Except.ok.inj h
      obtain ⟨rest, hrest⟩ : ∃ rest, text.dropWhile isDigit = '.' :: (fractionOf text ++ rest) := by
        unfold fractionOf at hnil ⊢
        split at hnil
        · next tail htail =>
          exact ⟨tail.dropWhile isDigit, by simp [htail]⟩
        · exact absurd rfl hnil
      refine ⟨text.takeWhile isDigit ++ '.' :: fractionOf text, rest, ?_, ?_,
        .fraction hwhole hnil hread⟩
      · simpa [hrest] using hsplit
      · simp only [List.length_append, List.length_cons]
        omega

lemma exists_spells_of_number {h : isDigit first = true}
    (hnumber : number first text h = .ok lexeme) : ∃ read rest, first :: text = read ++ rest ∧
      lexeme.size = read.length ∧ Spells lexeme.kind lexeme.value read := by
  unfold number at hnumber
  split_ifs at hnumber with hmark
  · unfold isHexMark at hmark
    split at hmark
    · next mark tail heq =>
      obtain ⟨rfl, rfl⟩ := List.cons.inj heq
      exact exists_spells_of_hexadecimal (by simpa using hmark) hnumber
    · cases hmark
  · exact exists_spells_of_decimal hnumber

/-- What is read as a lexeme spells it. -/
theorem exists_spells_of_scan (h : scan first text = .ok lexeme) :
    ∃ read rest, first :: text = read ++ rest ∧ lexeme.size = read.length ∧
      Spells lexeme.kind lexeme.value read := by
  unfold scan at h
  split_ifs at h with hnewline hname hdigit hquote hat
  · obtain rfl := Except.ok.inj h
    exact ⟨['\n'], text, by rw [hnewline]; rfl, rfl, .newline⟩
  · obtain rfl := Except.ok.inj h
    let name : VarName := ⟨first, text.takeWhile isNameChar, hname, fun c => List.mem_takeWhile_imp⟩
    exact ⟨name.chars, text.dropWhile isNameChar,
      congrArg (first :: ·) List.takeWhile_append_dropWhile.symm, rfl, .word name⟩
  · exact exists_spells_of_number h
  · unfold string at h
    split at h
    · next chars size hbody =>
      obtain rfl := Except.ok.inj h
      obtain ⟨body, rest, rfl, rfl, hquotes⟩ := Quotes.exists_of_stringBody hbody
      exact ⟨first :: (body ++ [first]), rest, by simp, by simp,
        .string (by simpa using hquote) hquotes⟩
    · cases h
  · split at h
    · next hvariable =>
      obtain rfl := Except.ok.inj h
      simp only [atVariable] at hvariable
      split_ifs at hvariable with hstart
      obtain rfl := Option.some.inj hvariable
      cases text with
      | nil => simp at hstart
      | cons c text =>
        have hc : isNameStart c = true := by simpa using hstart
        have hchar : isNameChar c = true := by simp [isNameChar, hc]
        let name : VarName := ⟨c, text.takeWhile isNameChar, hc, fun c => List.mem_takeWhile_imp⟩
        have htake : (c :: text).takeWhile isNameChar = name.chars :=
          List.takeWhile_cons_of_pos hchar
        simp only [htake]
        refine ⟨'@' :: name.chars, text.dropWhile isNameChar, ?_, rfl, .atName name⟩
        rw [hat]
        exact congrArg ('@' :: c :: ·) List.takeWhile_append_dropWhile.symm
    · cases h
  · split at h
    · next kind hkind =>
      obtain rfl := Except.ok.inj h
      exact ⟨[first], text, rfl, rfl, .delimiter hkind⟩
    · split at h
      · next s hs =>
        obtain rfl := Except.ok.inj h
        obtain ⟨rest, hrest⟩ : s.toList <+: first :: text := by simpa using List.find?_some hs
        exact ⟨s.toList, rest, hrest.symm, String.length_toList.symm,
          .symbol ((Operator.mem_spellings_iff s).mp (List.mem_of_find?_eq_some hs))⟩
      · cases h

/-- The operators are searched from the longest to the shortest. -/
lemma length_le_of_symbol?_eq {s t : String} (hs : symbol? text = some s)
    (ht : Operator.isKnown t = true) (hbegins : t.toList <+: text) : t.length ≤ s.length := by
  have hsorted : Operator.spellings.Pairwise fun s t => t.length ≤ s.length := by decide
  obtain ⟨-, before, after, heq, hbefore⟩ := List.find?_eq_some_iff_append.mp hs
  have hmem : t ∈ before ++ s :: after := heq ▸ (Operator.mem_spellings_iff t).mpr ht
  rw [heq, List.pairwise_append, List.pairwise_cons] at hsorted
  rcases List.mem_append.mp hmem with hmem | hmem
  · exact absurd (hbefore t hmem) (by simpa using hbegins)
  · rcases List.mem_cons.mp hmem with rfl | hmem
    · exact le_rfl
    · exact hsorted.2.1.1 t hmem

/-- The symbol that is read is the longest that the text begins with. -/
theorem length_le_of_scan (h : scan first text = .ok lexeme) (hkind : lexeme.kind = .symbol)
    {s : String} (hs : Operator.isKnown s = true) (hbegins : s.toList <+: first :: text) :
    s.length ≤ lexeme.size := by
  obtain ⟨t, ht, -, hsize⟩ := exists_symbol?_of_scan h hkind
  exact hsize ▸ length_le_of_symbol?_eq ht hs hbegins

end Lexeme

/-! ### Reading back -/

namespace IsReadAs

variable {rest : List Char}

lemma word (name : VarName) (hrest : AtBreak rest) :
    IsReadAs name.chars rest (.ofWord name.text) (.text name.text) where
  gapFrom_eq n := gapFrom_of_test Lexeme.isNameStart (by decide) name.isNameStart_first n _
  exists_scan := by
    have htake := takeWhile_append_atBreak name.isNameChar_others VarName.isNameChar_of_mem_breaks
      hrest
    have hnewline : name.first ≠ '\n' := by
      intro heq
      exact absurd name.isNameStart_first (by rw [heq]; decide)
    refine ⟨name.first, name.others ++ rest, Lexeme.word name.first (name.others ++ rest), rfl, ?_,
      ?_⟩
    · rw [Lexeme.scan, if_neg hnewline, if_pos name.isNameStart_first]
    · simp only [Lexeme.word, htake]
      exact ⟨rfl, rfl, rfl⟩

lemma hexadecimal {mark : Char} {digits : List Char} (hmark : mark = 'x' ∨ mark = 'X')
    (hne : digits ≠ []) (hdigits : ∀ c ∈ digits, (hexDigitValue? c).isSome = true)
    (hrest : AtBreak rest) : IsReadAs ('0' :: mark :: digits) rest .number
      (.int (ofDigits 16 (digits.filterMap hexDigitValue?))) where
  gapFrom_eq n := gapFrom_eq_self (by decide) (by decide) (by decide) n _
  exists_scan := by
    have htake := takeWhile_append_atBreak (p := fun c => (hexDigitValue? c).isSome) hdigits
      (eq_false_of_all (by decide)) hrest
    have hhex : Lexeme.isHexMark ('0' :: mark :: (digits ++ rest)) = true := by
      simpa [Lexeme.isHexMark] using hmark
    refine ⟨'0', mark :: (digits ++ rest), ⟨.number, _, digits.length + 2, by omega⟩, rfl, ?_,
      rfl, rfl, rfl⟩
    rw [Lexeme.scan, if_neg (by decide), if_neg (by decide), dif_pos (by decide), Lexeme.number,
      if_pos hhex]
    simp [Lexeme.hexadecimal, htake, hne]

lemma fraction {whole fraction : List Char} {x : Binary64} (hwhole : whole ≠ [])
    (hfraction : fraction ≠ []) (hread : Numeral.readFloat whole fraction = .ok x)
    (hrest : AtBreak rest) : IsReadAs (whole ++ '.' :: fraction) rest .number (.float x) where
  gapFrom_eq n := by
    obtain ⟨c, cs, rfl⟩ := List.exists_cons_of_ne_nil hwhole
    have hdecimal := (Numeral.exists_readFloat_iff _ _).mp ⟨x, hread⟩
    exact gapFrom_of_test (fun c => (digitValue? c).isSome) (by decide) (hdecimal c (by simp)) n _
  exists_scan := by
    obtain ⟨c, cs, rfl⟩ := List.exists_cons_of_ne_nil hwhole
    have hdecimal := (Numeral.exists_readFloat_iff _ _).mp ⟨x, hread⟩
    have hc : (digitValue? c).isSome = true := hdecimal c (by simp)
    have hdigit : ∀ d ∈ c :: cs ++ fraction, isDigit d = true := fun d hd =>
      isDigit_of_digitValue? (hdecimal d hd)
    obtain ⟨hwhole, hbehind⟩ := List.forall_mem_append.mp hdigit
    obtain ⟨text, htext⟩ : ∃ text, text = c :: (cs ++ '.' :: (fraction ++ rest)) := ⟨_, rfl⟩
    have htake : text.takeWhile isDigit = c :: cs := by
      rw [htext, ← List.cons_append, List.takeWhile_append_of_pos hwhole,
        List.takeWhile_cons_of_neg (by decide), List.append_nil]
    have hfraction' : Lexeme.fractionOf text = fraction := by
      have hdrop : text.dropWhile isDigit = '.' :: (fraction ++ rest) := by
        rw [htext, ← List.cons_append, List.dropWhile_append_of_pos hwhole,
          List.dropWhile_cons_of_neg (by decide)]
      rw [Lexeme.fractionOf, hdrop]
      exact takeWhile_append_atBreak hbehind Digits.isDigit_of_mem_breaks hrest
    have hmark : Lexeme.isHexMark text = false := by
      rw [htext]
      exact Digits.isHexMark_append (fun d hd => hdecimal d (List.mem_append_left _ hd))
        (by simp) (by simp)
    have hpos : 0 < (text.takeWhile isDigit).length := by simp [htake]
    refine ⟨c, cs ++ '.' :: (fraction ++ rest),
      ⟨.number, .float x, (c :: cs).length + 1 + fraction.length, by omega⟩, by simp, ?_, rfl, rfl,
      by simp; omega⟩
    rw [Lexeme.scan, if_neg (ne_of_digitValue? hc (by decide)),
      if_neg (by simp [isNameStart_eq_false hc]), dif_pos (isDigit_of_digitValue? hc),
      Lexeme.number]
    simp only [← htext]
    rw [if_neg (by simp [hmark]),
      Lexeme.decimal_of_fraction hpos (by rw [hfraction']; exact hfraction)]
    simp only [htake, hfraction', hread]
    rfl

lemma string {quote : Char} {chars body : List Char} (hquote : quote = '\'' ∨ quote = '"')
    (h : Quotes quote chars body) (rest : List Char) :
    IsReadAs (quote :: (body ++ [quote])) rest .string (.text (String.ofList chars)) where
  gapFrom_eq n := by
    rcases hquote with rfl | rfl <;>
      exact gapFrom_eq_self (by decide) (by decide) (by decide) n _
  exists_scan := by
    have hbody : Lexeme.stringBody quote (body ++ [quote] ++ rest) =
        .ok (chars, body.length + 1) := by
      rw [List.append_assoc]
      exact h.stringBody_append (by rcases hquote with rfl | rfl <;> decide) rest
    refine ⟨quote, body ++ [quote] ++ rest, ⟨.string, _, body.length + 1 + 1, by omega⟩, rfl, ?_,
      rfl, rfl, by simp⟩
    have hscan : Lexeme.scan quote (body ++ [quote] ++ rest) =
        Lexeme.string quote (body ++ [quote] ++ rest) := by
      rcases hquote with rfl | rfl <;> rfl
    rw [hscan, Lexeme.string, hbody]

end IsReadAs

/-- The texts of a token are read as the token. -/
theorem Spells.isReadAs {kind : TokenKind} {value : Value} {text rest : List Char}
    (h : Spells kind value text) (hrest : AtBreak rest) : IsReadAs text rest kind value := by
  cases h with
  | newline =>
    exact ⟨fun n => gapFrom_eq_self (by decide) (by decide) (by decide) n _, '\n', rest, _, rfl,
      rfl, rfl, rfl, rfl⟩
  | word name => exact .word name hrest
  | hexadecimal hmark hne hdigits => exact .hexadecimal hmark hne hdigits hrest
  | decimal digits => exact digits.isReadAs hrest
  | fraction hwhole hfraction hread => exact .fraction hwhole hfraction hread hrest
  | string hquote h => exact .string hquote h rest
  | atName name => exact name.isReadAs_variable hrest
  | delimiter h => exact isReadAs_delimiter h rest
  | symbol h => exact isReadAs_symbol h hrest

/-! ### The values of tokens -/

/-- Every token but the last is spelled in the source. -/
lemma Reads.exists_spells {file : String} {c : Cursor} {ts : List Token} (h : Reads file c ts) :
    ∀ t ∈ ts, t.kind = .eof ∨ ∃ text, Spells t.kind t.value text := by
  induction h with
  | last => simp
  | lexeme hgap hrest hscan h ih =>
    obtain ⟨text, -, -, -, hspells⟩ := Lexeme.exists_spells_of_scan hscan
    exact List.forall_mem_cons.mpr ⟨Or.inr ⟨text, hspells⟩, ih⟩

namespace Spells

variable {kind : TokenKind} {value : Value} {text : List Char}

lemma exists_of_word (h : Spells kind value text) (hkind : kind = .word) :
    ∃ name : VarName, value = .text name.text ∧ TokenKind.ofWord name.text = .word := by
  cases h with
  | word name => exact ⟨name, rfl, hkind⟩
  | delimiter h => exact absurd h (TokenKind.ofDelimiter?_ne (by simp [hkind]))
  | _ => cases hkind

lemma exists_of_variable (h : Spells kind value text) (hkind : kind = .variable) :
    ∃ name : VarName, value = .text name.text := by
  cases h with
  | word name => exact ⟨name, rfl⟩
  | atName name => exact ⟨name, rfl⟩
  | delimiter h => exact absurd h (TokenKind.ofDelimiter?_ne (by simp [hkind]))
  | _ => cases hkind

/-- A text is not read as a negative number. -/
lemma nonneg_of_int {n : Int} (h : Spells kind (.int n) text) : 0 ≤ n := by
  cases h <;> exact Int.natCast_nonneg _

end Spells

/-! ### Texts of several tokens -/

/-- In front of every break the text is read as tokens with these contents. -/
def SpelledAs (text : List Char) (xs : List (TokenKind × Value)) : Prop :=
  ∀ rest ys, AtBreak rest → Spelled rest ys → Spelled (text ++ rest) (xs ++ ys)

namespace SpelledAs

variable {text behind : List Char} {xs ys : List (TokenKind × Value)}

lemma nil : SpelledAs [] [] := fun _ _ _ hspelled => hspelled

lemma of_spells {x : TokenKind × Value} (h : Spells x.1 x.2 text) : SpelledAs text [x] :=
  fun _ _ hrest hspelled => .token (h.isReadAs hrest) hspelled

lemma spelled (h : SpelledAs text xs) : Spelled text xs := by
  simpa using h [] [] atBreak_nil .nil

lemma blank (h : SpelledAs text xs) : SpelledAs (' ' :: text) xs :=
  fun rest ys hrest hspelled => .blank (h rest ys hrest hspelled)

lemma delimiter {c : Char} {kind : TokenKind} (hc : TokenKind.ofDelimiter? c = some kind)
    (h : SpelledAs text xs) :
    SpelledAs (c :: text) ((kind, .text (String.ofList [c])) :: xs) := by
  intro rest ys hrest hspelled
  have hread := isReadAs_delimiter hc (text ++ rest)
  exact hread.spelled (h rest ys hrest hspelled)

/-- A text that begins with a break may come behind. -/
lemma append {c : Char} (hc : c ∈ breaks) (h : SpelledAs text xs)
    (hbehind : SpelledAs (c :: behind) ys) : SpelledAs (text ++ c :: behind) (xs ++ ys) := by
  intro rest zs hrest hspelled
  rw [List.append_assoc, List.append_assoc]
  refine h _ _ ?_ (hbehind rest zs hrest hspelled)
  simpa [AtBreak] using hc

/-- A text between the delimiters of a group. -/
lemma enclosed {o c : Char} {opener closer : TokenKind}
    (ho : TokenKind.ofDelimiter? o = some opener) (hc : TokenKind.ofDelimiter? c = some closer)
    (hbreak : c ∈ breaks) (h : SpelledAs text xs) :
    SpelledAs (o :: (text ++ [c])) ((opener, .text (String.ofList [o])) ::
      (xs ++ [(closer, .text (String.ofList [c]))])) :=
  .delimiter ho (h.append hbreak (.delimiter hc .nil))

end SpelledAs

end LineScript
