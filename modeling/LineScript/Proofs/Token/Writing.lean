import LineScript.Proofs.Token.Wording

/-!
# Writing tokens

Every token but the last one of a source can be written, most of them in several ways: an integer in
decimal or hexadecimal digits, a string between quotes of either kind. Tokens that are written with
single blanks between them are read back as they were (`Written.exists_tokens_source`).
-/

namespace LineScript

open Text

/-- A character of a string as it is written between quotes. -/
def escape (quote c : Char) : List Char :=
  if c = '\\' ∨ c = quote then ['\\', c]
  else if c = '\n' then ['\\', 'n']
  else [c]

/-- The words that are no names. -/
def keywords : List (String × TokenKind) :=
  [("true", .trueWord), ("false", .falseWord), ("null", .nullWord)]

/-- A token that can be written, and how it is written. -/
inductive Written where
  | decimal (n : Nat) (h : n < Numeral.bound)
  /-- An integer of any size, with digits of either case. -/
  | hexadecimal (n : Nat) (mark : Char) (digits : List Char) (hmark : mark = 'x' ∨ mark = 'X')
      (hdigits : digits.map Char.toLower = Nat.toDigits 16 n)
  | string (quote : Char) (s : String) (hquote : quote = '\'' ∨ quote = '"')
  | atName (name : VarName)
  | word (name : VarName) (h : name.text ∉ keywords.map Prod.fst)
  | keyword (spelling : String) (kind : TokenKind) (h : (spelling, kind) ∈ keywords)
  | symbol (s : String) (h : Operator.isKnown s = true)
  | delimiter (c : Char) (kind : TokenKind) (h : TokenKind.ofDelimiter? c = some kind)
  | newline

namespace Written

/-- The token. -/
def content : Written → TokenKind × Value
  | decimal n _ | hexadecimal n _ _ _ _ => (.number, .int n)
  | string _ s _ => (.string, .text s)
  | atName name => (.variable, .text name.text)
  | word name _ => (.word, .text name.text)
  | keyword spelling kind _ => (kind, .text spelling)
  | symbol s _ => (.symbol, .text s)
  | delimiter c kind _ => (kind, .text (String.ofList [c]))
  | newline => (.newline, .null)

/-- What is written. -/
def text : Written → List Char
  | decimal n _ => Nat.toDigits 10 n
  | hexadecimal _ mark digits _ _ => '0' :: mark :: digits
  | string quote s _ => quote :: (s.toList.flatMap (escape quote) ++ [quote])
  | atName name => '@' :: name.chars
  | word name _ => name.chars
  | keyword spelling _ _ => spelling.toList
  | symbol s _ => s.toList
  | delimiter c _ _ => [c]
  | newline => ['\n']

/-- A text of written tokens with single blanks between them. -/
def source (xs : List Written) : String :=
  String.ofList ([' '].intercalate (xs.map text))

end Written

/-! ### Hexadecimal digits -/

lemma hexDigitValue?_toLower (c : Char) : hexDigitValue? c.toLower = hexDigitValue? c := by
  have hall : ∀ k < 26, hexDigitValue? (Char.ofNat (65 + k)).toLower =
      hexDigitValue? (Char.ofNat (65 + k)) := by decide
  by_cases hupper : 65 ≤ c.toNat ∧ c.toNat ≤ 90
  · have hc := hall (c.toNat - 65) (by omega)
    rwa [Nat.add_sub_cancel' hupper.1, Char.ofNat_toNat] at hc
  · have hsame : c.toLower = c := dif_neg (by simpa [UInt32.le_iff_toNat_le] using hupper)
    rw [hsame]

lemma hexDigitValue?_digitChar : ∀ d < 16, hexDigitValue? d.digitChar = some d := by decide

lemma hexDigitValue?_of_mem_toDigits {n : Nat} :
    ∀ c ∈ Nat.toDigits 16 n, (hexDigitValue? c).isSome = true := by
  induction n using Nat.strong_induction_on with
  | _ n ih =>
    rw [Nat.toDigits_eq_if (by decide)]
    split_ifs with hn
    · simp [hexDigitValue?_digitChar n hn]
    · have hlast := hexDigitValue?_digitChar (n % 16) (Nat.mod_lt n (by decide))
      exact List.forall_mem_append.mpr ⟨ih (n / 16) (by omega), by simp [hlast]⟩

lemma ofDigits_toDigits (n : Nat) :
    ofDigits 16 ((Nat.toDigits 16 n).filterMap hexDigitValue?) = n := by
  induction n using Nat.strong_induction_on with
  | _ n ih =>
    rw [Nat.toDigits_eq_if (by decide)]
    split_ifs with hn
    · simp [hexDigitValue?_digitChar n hn, ofDigits]
    · have hlast := hexDigitValue?_digitChar (n % 16) (Nat.mod_lt n (by decide))
      have hfront := ih (n / 16) (by omega)
      simp only [ofDigits] at hfront ⊢
      simp only [List.filterMap_append, List.foldl_append, hfront, List.filterMap_cons, hlast,
        List.filterMap_nil, List.foldl_cons, List.foldl_nil]
      omega

/-! ### Strings -/

lemma quotes_escape {quote : Char} (hquote : quote = '\'' ∨ quote = '"') (chars : List Char) :
    Quotes quote chars (chars.flatMap (escape quote)) := by
  induction chars with
  | nil => exact .nil
  | cons c chars ih =>
    rw [List.flatMap_cons, escape]
    split_ifs with hmeaning hnewline
    · have hc : Lexeme.unescape c = c := by
        rcases hmeaning with rfl | rfl
        · rfl
        · rcases hquote with rfl | rfl <;> rfl
      have hquotes := Quotes.escaped c ih
      rw [hc] at hquotes
      exact hquotes
    · rw [hnewline]
      exact .escaped 'n' ih
    · obtain ⟨hbackslash, hne⟩ := not_or.mp hmeaning
      exact .plain hne hnewline hbackslash ih

/-! ### Reading written tokens -/

lemma spells_of_mem_keywords {spelling : String} {kind : TokenKind}
    (h : (spelling, kind) ∈ keywords) : Spells kind (.text spelling) spelling.toList := by
  have hall : ∀ keyword ∈ keywords, VarName.isNameText keyword.1 = true ∧
      TokenKind.ofWord keyword.1 = keyword.2 := by decide +kernel
  obtain ⟨hname, hkind⟩ := hall _ h
  have hspells := Spells.of_isNameText hname
  rwa [hkind] at hspells

namespace Written

lemma spells (x : Written) : Spells x.content.1 x.content.2 x.text := by
  cases x with
  | decimal n h =>
    obtain ⟨digits, hchars, hvalue⟩ := Digits.exists_value_eq h
    have hspells := Spells.decimal digits
    rw [hchars, hvalue] at hspells
    exact hspells
  | hexadecimal n mark digits hmark hdigits =>
    have hvalue : digits.filterMap hexDigitValue? =
        (Nat.toDigits 16 n).filterMap hexDigitValue? := by
      rw [← hdigits, List.filterMap_map]
      exact List.filterMap_congr fun c _ => (hexDigitValue?_toLower c).symm
    have hall : ∀ c ∈ digits, (hexDigitValue? c).isSome = true := by
      intro c hc
      rw [← hexDigitValue?_toLower]
      exact hexDigitValue?_of_mem_toDigits (n := n) _ (hdigits ▸ List.mem_map_of_mem hc)
    have hne : digits ≠ [] := by
      rintro rfl
      exact Nat.toDigits_ne_nil hdigits.symm
    have hspells := Spells.hexadecimal hmark hne hall
    rw [hvalue, ofDigits_toDigits] at hspells
    exact hspells
  | string quote s hquote =>
    have hspells := Spells.string hquote (quotes_escape hquote s.toList)
    rw [String.ofList_toList] at hspells
    exact hspells
  | atName name => exact .atName name
  | word name h =>
    have hword : TokenKind.ofWord name.text = .word := by
      simp only [keywords, List.map_cons, List.map_nil, List.mem_cons, List.not_mem_nil,
        or_false, not_or] at h
      simp [TokenKind.ofWord, h]
    have hspells := Spells.word name
    rw [hword] at hspells
    exact hspells
  | keyword spelling kind h => exact spells_of_mem_keywords h
  | symbol s h => exact .symbol h
  | delimiter c kind h => exact .delimiter h
  | newline => exact .newline

/-- Tokens that are written with single blanks between them are read back. -/
theorem exists_tokens_source (xs : List Written) (file : String) :
    ∃ ts last, tokens (source xs) file = .ok (ts ++ [last]) ∧
      ts.map Token.content = xs.map content ∧ last.content = (.eof, .null) := by
  have hall : List.Forall₂ (fun text x => ∀ rest, AtBlank rest → IsReadAs text rest x.1 x.2)
      (xs.map text) (xs.map content) := by
    rw [List.forall₂_map_left_iff, List.forall₂_map_right_iff, List.forall₂_same]
    exact fun x _ rest hrest => x.spells.isReadAs hrest.atBreak
  have hspelled : Spelled (source xs).toList (xs.map content) := by
    rw [source, String.toList_ofList]
    exact Spelled.intercalate hall
  obtain ⟨ts, last, hts, hlast, htokens⟩ := hspelled.exists_tokens file
  exact ⟨ts, last, htokens, hts, hlast⟩

end Written

end LineScript
