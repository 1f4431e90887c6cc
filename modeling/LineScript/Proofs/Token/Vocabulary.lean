import LineScript.Proofs.Token.Spelling
import Mathlib.Data.List.Find

/-!
# The vocabulary of expressions

The texts that expressions are written with: variables, decimal numerals, operators and delimiters.
A numeral may have the digits of any script, and an operator is told from the shorter ones it begins
with by the break behind it.
-/

namespace LineScript

open Text

/-! ### Where a token ends -/

lemma eq_false_of_all {l : List Char} {p : Char → Bool} (h : l.all (!p ·) = true) :
    ∀ c ∈ l, p c = false := by
  simpa using h

lemma atBreak_nil : AtBreak [] := by
  simp [AtBreak]

lemma AtBreak.ne {rest : List Char} (h : AtBreak rest) {d : Char} (hd : d ∉ breaks) :
    ∀ c ∈ rest.head?, c ≠ d := by
  rintro c hc rfl
  exact hd (h c hc)

lemma takeWhile_append_atBreak {p : Char → Bool} {l rest : List Char} (hl : ∀ c ∈ l, p c = true)
    (hp : ∀ c ∈ breaks, p c = false) (hrest : AtBreak rest) : (l ++ rest).takeWhile p = l := by
  rw [List.takeWhile_append_of_pos hl]
  cases rest with
  | nil => simp
  | cons c rest => simp [hp c (hrest c rfl)]

lemma dropWhile_append_atBreak {p : Char → Bool} {l rest : List Char} (hl : ∀ c ∈ l, p c = true)
    (hp : ∀ c ∈ breaks, p c = false) (hrest : AtBreak rest) : (l ++ rest).dropWhile p = rest := by
  rw [List.dropWhile_append_of_pos hl]
  cases rest with
  | nil => simp
  | cons c rest => simp [hp c (hrest c rfl)]

lemma gapFrom_eq_self {c : Char} (hlayout : isLayout c = false) (hhash : c ≠ '#')
    (hslash : c ≠ '/') (n : Nat) (text : List Char) :
    Lexeme.gapFrom .blanks n (c :: text) = .ok n := by
  rw [Lexeme.gapFrom.eq_def]
  simp [hlayout, hhash, hslash]

/-- A character that passes a test begins no gap if nothing that begins a gap passes the test. -/
lemma gapFrom_of_test (p : Char → Bool) (hp : [' ', '\t', '\r', '#', '/'].all (!p ·) = true)
    {c : Char} (hc : p c = true) (n : Nat) (text : List Char) :
    Lexeme.gapFrom .blanks n (c :: text) = .ok n := by
  have hne : ∀ d ∈ [' ', '\t', '\r', '#', '/'], c ≠ d := by
    rintro d hd rfl
    exact Bool.false_ne_true ((eq_false_of_all hp c hd).symm.trans hc)
  simp only [List.forall_mem_cons] at hne
  obtain ⟨hspace, htab, hreturn, hhash, hslash, -⟩ := hne
  exact gapFrom_eq_self (by simp [isLayout, hspace, htab, hreturn]) hhash hslash n text

/-- A block comment goes on with every character that does not begin its end. -/
lemma gapFrom_blockComment_cons {c : Char} {text : List Char}
    (h : ¬(c = '*' ∧ text.head? = some '/')) (start n : Nat) :
    Lexeme.gapFrom (.blockComment start) n (c :: text) =
      Lexeme.gapFrom (.blockComment start) (n + 1) text := by
  rw [Lexeme.gapFrom.eq_def]
  simp only
  split_ifs with hstar
  · split
    · simp [hstar] at h
    · rfl
  · rfl

/-! ### Variables -/

/-- The name of a variable. -/
structure VarName where
  first : Char
  others : List Char
  isNameStart_first : Lexeme.isNameStart first = true
  isNameChar_others : ∀ c ∈ others, Lexeme.isNameChar c = true

namespace VarName

def chars (name : VarName) : List Char := name.first :: name.others

def text (name : VarName) : String := String.ofList name.chars

lemma isNameChar_chars (name : VarName) : ∀ c ∈ name.chars, Lexeme.isNameChar c = true := by
  intro c hc
  rcases List.mem_cons.mp hc with rfl | hc
  · simp [Lexeme.isNameChar, name.isNameStart_first]
  · exact name.isNameChar_others c hc

/-- A text is a name if its characters are those of one. -/
def isNameText (s : String) : Bool :=
  s.toList.head?.any Lexeme.isNameStart && s.toList.all Lexeme.isNameChar

lemma exists_of_isNameText {s : String} (h : isNameText s = true) :
    ∃ name : VarName, name.text = s ∧ name.chars = s.toList := by
  obtain ⟨hstart, hall⟩ := (Bool.and_eq_true _ _).mp h
  cases htext : s.toList with
  | nil => simp [htext] at hstart
  | cons c cs =>
    rw [htext] at hstart hall
    have hchars := List.all_eq_true.mp hall
    let name : VarName := ⟨c, cs, by simpa using hstart, fun d hd =>
      hchars d (List.mem_cons_of_mem c hd)⟩
    exact ⟨name, by rw [text, chars, ← htext, String.ofList_toList], rfl⟩

lemma isNameChar_of_mem_breaks : ∀ c ∈ breaks, Lexeme.isNameChar c = false :=
  eq_false_of_all (by decide)

lemma atVariable_append (name : VarName) {rest : List Char} (hrest : AtBreak rest) :
    Lexeme.atVariable (name.chars ++ rest) =
      some ⟨.variable, .text name.text, name.chars.length + 1, by omega⟩ := by
  have htake := takeWhile_append_atBreak name.isNameChar_chars isNameChar_of_mem_breaks hrest
  have hhead : (name.chars ++ rest).head?.any Lexeme.isNameStart = true := by
    simp [chars, name.isNameStart_first]
  simp only [Lexeme.atVariable, htake, hhead, if_true]
  rfl

lemma isReadAs_variable (name : VarName) {rest : List Char} (hrest : AtBreak rest) :
    IsReadAs ('@' :: name.chars) rest .variable (.text name.text) where
  gapFrom_eq n := gapFrom_eq_self (by decide) (by decide) (by decide) n _
  exists_scan := by
    refine ⟨'@', name.chars ++ rest, ⟨.variable, .text name.text, name.chars.length + 1, by omega⟩,
      rfl, ?_, rfl, rfl, rfl⟩
    rw [Lexeme.scan, if_neg (by decide), if_neg (by decide), dif_neg (by decide),
      if_neg (by decide), if_pos rfl, name.atVariable_append hrest]

end VarName

/-- A name behind an at sign. -/
def Spelling.ofVariable (name : VarName) : Spelling where
  text := '@' :: name.chars
  kind := .variable
  value := .text name.text
  gapFrom_eq n _ hrest := (name.isReadAs_variable hrest.atBreak).gapFrom_eq n
  exists_scan _ hrest := (name.isReadAs_variable hrest.atBreak).exists_scan

/-! ### Decimal numerals -/

lemma toNat_of_digitValue? {c : Char} (h : (digitValue? c).isSome = true) :
    (0x30 ≤ c.toNat ∧ c.toNat ≤ 0x39) ∨ 0x660 ≤ c.toNat := by
  have hall : ∀ z ∈ decimalZeros, z = 0x30 ∨ 0x660 ≤ z := by decide
  simp only [digitValue?, Option.isSome_map, List.find?_isSome, Bool.and_eq_true,
    decide_eq_true_eq] at h
  obtain ⟨z, hz, hle, hge⟩ := h
  rcases hall z hz with rfl | hz
  · exact Or.inl ⟨hle, hge⟩
  · exact Or.inr (Nat.le_trans hz hle)

lemma ne_of_digitValue? {c d : Char} (h : (digitValue? c).isSome = true)
    (hd : (digitValue? d).isSome = false) : c ≠ d := by
  rintro rfl
  exact Bool.false_ne_true (hd.symm.trans h)

lemma isNameStart_eq_false {c : Char} (h : (digitValue? c).isSome = true) :
    Lexeme.isNameStart c = false := by
  have hc := toNat_of_digitValue? h
  have hnat : c.toNat = c.val.toNat := rfl
  have hunderscore : c ≠ '_' := ne_of_digitValue? h (by decide)
  simp only [Lexeme.isNameStart, hunderscore, decide_false, Bool.or_false, Bool.or_eq_false_iff,
    Bool.and_eq_false_imp, decide_eq_true_eq, decide_eq_false_iff_not, Char.le_def,
    UInt32.le_iff_toNat_le]
  constructor <;> simp <;> omega

lemma isDigit_of_digitValue? {c : Char} (h : (digitValue? c).isSome = true) :
    isDigit c = true := by
  simp [isDigit, h]

/-- A text of decimal digits that is not too long to be read. -/
structure Digits where
  chars : List Char
  ne_nil : chars ≠ []
  isDecimal : ∀ c ∈ chars, (digitValue? c).isSome = true
  length_le : chars.length ≤ Numeral.maxDigits

namespace Digits

/-- The number that the digits spell. -/
def value (digits : Digits) : Nat := ofDigits 10 (Numeral.digitValues digits.chars)

lemma digitValue?_of_mem_breaks : ∀ c ∈ breaks, (digitValue? c).isSome = false :=
  eq_false_of_all (by decide)

lemma isDigit_of_mem_breaks : ∀ c ∈ breaks, isDigit c = false :=
  eq_false_of_all (by decide)

lemma readNatural_chars (digits : Digits) :
    Numeral.readNatural digits.chars = .ok digits.value := by
  have htake : digits.chars.takeWhile (fun c => (digitValue? c).isSome) = digits.chars := by
    simpa using takeWhile_append_atBreak digits.isDecimal digitValue?_of_mem_breaks atBreak_nil
  have hlength := digits.length_le
  simp only [Numeral.readNatural, htake]
  rw [if_neg (by omega), if_pos trivial]
  rfl

/-- Digits that end at a break are read as a whole. -/
lemma exists_decimal (digits : Digits) (text : List Char) {rest : List Char}
    (hrest : AtBreak rest) (htext : text = digits.chars ++ rest) :
    ∃ lexeme, (∀ hnonempty, Lexeme.decimal text hnonempty = .ok lexeme) ∧
      lexeme.kind = .number ∧ lexeme.value = .int digits.value ∧
      lexeme.size = digits.chars.length := by
  subst htext
  have hall : ∀ c ∈ digits.chars, isDigit c = true := fun c hc =>
    isDigit_of_digitValue? (digits.isDecimal c hc)
  have htake := takeWhile_append_atBreak hall isDigit_of_mem_breaks hrest
  have hdrop := dropWhile_append_atBreak hall isDigit_of_mem_breaks hrest
  have hpoint : ∀ text, rest ≠ '.' :: text := by
    rintro text rfl
    exact hrest.ne (by decide) '.' rfl rfl
  refine ⟨⟨.number, .int digits.value, digits.chars.length, List.length_pos_iff.mpr digits.ne_nil⟩,
    ?_, rfl, rfl, rfl⟩
  intro hnonempty
  simp [Lexeme.decimal, htake, hdrop, digits.readNatural_chars]

lemma isHexMark_eq_false {c : Char} {text : List Char} (hlower : ∀ d ∈ text.head?, d ≠ 'x')
    (hupper : ∀ d ∈ text.head?, d ≠ 'X') : Lexeme.isHexMark (c :: text) = false := by
  unfold Lexeme.isHexMark
  split
  · next d _ heq =>
    obtain ⟨-, rfl⟩ := List.cons.inj heq
    simp [hlower d rfl, hupper d rfl]
  · rfl

/-- What is no digit and does not come behind a numeral does not come behind its first digit. -/
lemma ne_of_mem_head? {c d : Char} {cs rest : List Char}
    (hdecimal : ∀ e ∈ c :: cs, (digitValue? e).isSome = true)
    (hd : (digitValue? d).isSome = false) (hrest : ∀ e ∈ rest.head?, e ≠ d) :
    ∀ e ∈ (cs ++ rest).head?, e ≠ d := by
  intro e he
  cases cs with
  | nil => exact hrest e he
  | cons f cs =>
    obtain rfl : f = e := by simpa using he
    exact ne_of_digitValue? (hdecimal f (by simp)) hd

/-- No digits begin with the mark of a hexadecimal number. -/
lemma isHexMark_append {c : Char} {cs rest : List Char}
    (hdecimal : ∀ e ∈ c :: cs, (digitValue? e).isSome = true)
    (hlower : ∀ e ∈ rest.head?, e ≠ 'x') (hupper : ∀ e ∈ rest.head?, e ≠ 'X') :
    Lexeme.isHexMark (c :: (cs ++ rest)) = false :=
  isHexMark_eq_false (ne_of_mem_head? hdecimal (by decide) hlower)
    (ne_of_mem_head? hdecimal (by decide) hupper)

lemma isReadAs (digits : Digits) {rest : List Char} (hrest : AtBreak rest) :
    IsReadAs digits.chars rest .number (.int digits.value) where
  gapFrom_eq n := by
    obtain ⟨c, cs, htext⟩ := List.exists_cons_of_ne_nil digits.ne_nil
    have hc := digits.isDecimal c (by simp [htext])
    rw [htext]
    exact gapFrom_of_test (fun c => (digitValue? c).isSome) (by decide) hc n _
  exists_scan := by
    obtain ⟨c, cs, htext⟩ := List.exists_cons_of_ne_nil digits.ne_nil
    have hdecimal := htext ▸ digits.isDecimal
    have hc := hdecimal c List.mem_cons_self
    have hmark := isHexMark_append hdecimal (hrest.ne (by decide)) (hrest.ne (by decide))
    obtain ⟨lexeme, hlexeme, hkind⟩ :=
      digits.exists_decimal (c :: (cs ++ rest)) hrest (by rw [htext]; rfl)
    refine ⟨c, cs ++ rest, lexeme, by rw [htext]; rfl, ?_, hkind⟩
    rw [Lexeme.scan, if_neg (ne_of_digitValue? hc (by decide)),
      if_neg (by simp [isNameStart_eq_false hc]), dif_pos (isDigit_of_digitValue? hc),
      Lexeme.number, if_neg (by simp [hmark])]
    exact hlexeme _

end Digits

/-- A decimal numeral. -/
def Spelling.ofDigits (digits : Digits) : Spelling where
  text := digits.chars
  kind := .number
  value := .int digits.value
  gapFrom_eq n _ hrest := (digits.isReadAs hrest.atBreak).gapFrom_eq n
  exists_scan _ hrest := (digits.isReadAs hrest.atBreak).exists_scan

lemma lt_ten_of_digitValue? {c : Char} {n : Nat} (h : digitValue? c = some n) : n < 10 := by
  obtain ⟨z, hz, rfl⟩ := Option.map_eq_some_iff.mp h
  have hrange := List.find?_some hz
  simp only [Bool.and_eq_true, decide_eq_true_eq] at hrange
  omega

lemma foldl_lt_pow {digits : List Nat} (hdigits : ∀ d ∈ digits, d < 10) {n k : Nat}
    (hn : n < Nat.pow 10 k) :
    digits.foldl (fun n d => n * 10 + d) n < Nat.pow 10 (k + digits.length) := by
  induction digits generalizing n k with
  | nil => exact hn
  | cons d digits ih =>
    have hd : d < 10 := hdigits d List.mem_cons_self
    have hnext : n * 10 + d < Nat.pow 10 (k + 1) := by
      have hsucc : Nat.pow 10 (k + 1) = Nat.pow 10 k * 10 := rfl
      omega
    have hlt := ih (fun e he => hdigits e (List.mem_cons_of_mem _ he)) hnext
    rwa [List.foldl_cons, List.length_cons, Nat.add_comm digits.length 1, ← Nat.add_assoc]

lemma Digits.value_lt_pow (digits : Digits) {k : Nat} (hk : digits.chars.length ≤ k) :
    digits.value < Nat.pow 10 k := by
  have hdigits : ∀ d ∈ Numeral.digitValues digits.chars, d < 10 := by
    intro d hd
    obtain ⟨c, -, hc⟩ := List.mem_filterMap.mp hd
    exact lt_ten_of_digitValue? hc
  have hlt := foldl_lt_pow hdigits (n := 0) (k := 0) (by decide)
  have hlength : (Numeral.digitValues digits.chars).length ≤ digits.chars.length :=
    List.length_filterMap_le _ _
  exact Nat.lt_of_lt_of_le hlt (Nat.pow_le_pow_right (by decide) (by omega))

/-- What digits spell is below the bound. -/
lemma Digits.value_lt (digits : Digits) : digits.value < Numeral.bound := by
  have hlength := digits.length_le
  unfold Numeral.bound
  generalize Numeral.maxDigits = k at hlength ⊢
  exact digits.value_lt_pow hlength

lemma digitValue?_of_isDigit {c : Char} (h : c.isDigit = true) :
    digitValue? c = some (c.toNat - '0'.toNat) := by
  have hc : 0x30 ≤ c.toNat ∧ c.toNat ≤ 0x39 := by
    simpa [Char.isDigit, UInt32.le_iff_toNat_le] using h
  rw [digitValue?, decimalZeros, List.find?_cons_of_pos (by simpa using hc)]
  rfl

lemma digitValues_of_isDigit {digits : List Char} (h : ∀ c ∈ digits, c.isDigit = true) :
    Numeral.digitValues digits = digits.map fun c => c.toNat - '0'.toNat := by
  induction digits with
  | nil => rfl
  | cons c digits ih =>
    have hdigits := ih fun d hd => h d (List.mem_cons_of_mem _ hd)
    simp only [Numeral.digitValues] at hdigits ⊢
    rw [List.filterMap_cons, digitValue?_of_isDigit (h c List.mem_cons_self), hdigits]
    rfl

lemma length_toDigits_le {n k : Nat} (hk : 0 < k) (h : n < Nat.pow 10 k) :
    (Nat.toDigits 10 n).length ≤ k :=
  (Nat.length_toDigits_le_iff (by decide) hk).mpr h

/-- A number below the bound is spelled by its decimal digits. -/
lemma Digits.exists_value_eq {n : Nat} (h : n < Numeral.bound) : ∃ digits : Digits,
    digits.chars = Nat.toDigits 10 n ∧ digits.value = n := by
  have hdigits : ∀ c ∈ Nat.toDigits 10 n, c.isDigit = true := fun c hc =>
    Nat.isDigit_of_mem_toDigits (by decide) (by decide) hc
  refine ⟨⟨Nat.toDigits 10 n, Nat.toDigits_ne_nil, ?_, ?_⟩, rfl, ?_⟩
  · intro c hc
    rw [digitValue?_of_isDigit (hdigits c hc)]
    rfl
  · have hpos : 0 < Numeral.maxDigits := by decide
    unfold Numeral.bound at h
    generalize Numeral.maxDigits = k at h hpos ⊢
    exact length_toDigits_le hpos h
  · rw [Digits.value, digitValues_of_isDigit hdigits, ofDigits, List.foldl_map]
    have hvalue := Nat.ofDigitChars_ten_toDigits (n := n)
    simpa [Nat.ofDigitChars, Nat.mul_comm] using hvalue

/-! ### Operators -/

lemma isPrefixOf_append_atBreak {t s rest : List Char} (ht : ∀ c ∈ t, c ∉ breaks)
    (hrest : AtBreak rest) : t.isPrefixOf (s ++ rest) = t.isPrefixOf s := by
  induction t generalizing s with
  | nil => simp
  | cons c t ih =>
    obtain ⟨hc, ht⟩ := List.forall_mem_cons.mp ht
    cases s with
    | nil =>
      cases rest with
      | nil => rfl
      | cons d rest =>
        have hne : c ≠ d := by
          rintro rfl
          exact hc (hrest c rfl)
        simp [List.isPrefixOf, hne]
    | cons d s => simp [List.isPrefixOf, ih ht]

/-- An operator is the longest one that its own text begins with. -/
lemma symbol?_append {s : String} (hs : Operator.isKnown s = true) {rest : List Char}
    (hrest : AtBreak rest) : Lexeme.symbol? (s.toList ++ rest) = some s := by
  have hbreak : ∀ t ∈ Operator.spellings, t.toList.all (· ∉ breaks) = true := by decide
  have hfirst : ∀ s ∈ Operator.known,
      Operator.spellings.find? (fun t => t.toList.isPrefixOf s.toList) = some s := by decide
  have hcongr : Lexeme.symbol? (s.toList ++ rest) =
      Operator.spellings.find? fun t => t.toList.isPrefixOf s.toList := by
    refine List.find?_congr ?_
    intro t ht
    exact isPrefixOf_append_atBreak (by simpa using hbreak t ht) hrest
  rw [hcongr]
  exact hfirst s (by simpa [Operator.isKnown] using hs)

/-- A character that is nothing but the beginning of an operator. -/
def opensSymbol (c : Char) : Bool :=
  c ≠ '\n' && !Lexeme.isNameStart c && !isDigit c && !(c = '\'' || c = '"') && c ≠ '@' &&
    (TokenKind.ofDelimiter? c).isNone && !isLayout c && c ≠ '#'

lemma scan_eq_symbol {c : Char} {text : List Char} {s : String} (hc : opensSymbol c = true)
    (hs : Lexeme.symbol? (c :: text) = some s) :
    ∃ lexeme, Lexeme.scan c text = .ok lexeme ∧ lexeme.kind = .symbol ∧ lexeme.value = .text s ∧
      lexeme.size = s.length := by
  simp only [opensSymbol, Bool.and_eq_true, Bool.not_eq_true', decide_eq_true_eq,
    Option.isNone_iff_eq_none] at hc
  obtain ⟨⟨⟨⟨⟨⟨⟨hnewline, hname⟩, hdigit⟩, hquote⟩, hat⟩, hdelimiter⟩, -⟩, -⟩ := hc
  refine ⟨⟨.symbol, .text s, s.length, Lexeme.length_pos_of_symbol? hs⟩, ?_, rfl, rfl, rfl⟩
  rw [Lexeme.scan, if_neg hnewline, if_neg (by simp [hname]), dif_neg (by simp [hdigit]),
    if_neg (by simp [hquote]), if_neg hat, hdelimiter]
  dsimp only
  split
  · next heq =>
    obtain rfl := Option.some.inj (hs.symm.trans heq)
    rfl
  · next heq =>
    rw [hs] at heq
    cases heq

lemma gapFrom_of_not_comment {c : Char} {text : List Char} (hc : opensSymbol c = true)
    (hline : ['/', '/'].isPrefixOf (c :: text) = false)
    (hblock : ['/', '*'].isPrefixOf (c :: text) = false) (n : Nat) :
    Lexeme.gapFrom .blanks n (c :: text) = .ok n := by
  simp only [opensSymbol, Bool.and_eq_true, Bool.not_eq_true', decide_eq_true_eq] at hc
  obtain ⟨⟨-, hlayout⟩, hhash⟩ := hc
  by_cases hslash : c = '/'
  · subst hslash
    rw [Lexeme.gapFrom.eq_def]
    simp only [hlayout, Bool.false_eq_true, if_false, if_true, if_neg hhash]
    split
    · simp [List.isPrefixOf] at hline
    · simp [List.isPrefixOf] at hblock
    · rfl
  · exact gapFrom_eq_self hlayout hhash hslash n text

lemma exists_cons_of_isKnown {s : String} (hs : Operator.isKnown s = true) :
    ∃ c cs, s.toList = c :: cs ∧ opensSymbol c = true := by
  have hall : ∀ s ∈ Operator.known, s.toList.head?.any opensSymbol = true := by decide
  have hs := hall s (by simpa [Operator.isKnown] using hs)
  cases htext : s.toList with
  | nil => simp [htext] at hs
  | cons c cs => exact ⟨c, cs, rfl, by simpa [htext] using hs⟩

lemma isReadAs_symbol {s : String} (hs : Operator.isKnown s = true) {rest : List Char}
    (hrest : AtBreak rest) : IsReadAs s.toList rest .symbol (.text s) where
  gapFrom_eq n := by
    have hall : ∀ s ∈ Operator.known, ['/', '/'].isPrefixOf s.toList = false ∧
        ['/', '*'].isPrefixOf s.toList = false := by decide
    obtain ⟨hline, hblock⟩ := hall s (by simpa [Operator.isKnown] using hs)
    rw [← isPrefixOf_append_atBreak (by simp [breaks]) hrest] at hline hblock
    obtain ⟨c, cs, htext, hc⟩ := exists_cons_of_isKnown hs
    rw [htext] at hline hblock ⊢
    exact gapFrom_of_not_comment hc hline hblock n
  exists_scan := by
    obtain ⟨c, cs, htext, hc⟩ := exists_cons_of_isKnown hs
    have hsymbol := symbol?_append hs hrest
    rw [htext] at hsymbol ⊢
    obtain ⟨lexeme, hscan, hkind, hvalue, hsize⟩ := scan_eq_symbol hc hsymbol
    refine ⟨c, cs ++ rest, lexeme, rfl, hscan, hkind, hvalue, ?_⟩
    rw [hsize, ← htext]
    rfl

/-- The text of an operator. -/
def Spelling.ofSymbol (s : String) (hs : Operator.isKnown s = true) : Spelling where
  text := s.toList
  kind := .symbol
  value := .text s
  gapFrom_eq n _ hrest := (isReadAs_symbol hs hrest.atBreak).gapFrom_eq n
  exists_scan _ hrest := (isReadAs_symbol hs hrest.atBreak).exists_scan

/-! ### Delimiters -/

lemma ofDelimiter?_cases {c : Char} {kind : TokenKind} (hc : TokenKind.ofDelimiter? c = some kind) :
    c ∈ ['(', ')', '[', ']', '\x7b', '\x7d', ',', ':'] := by
  unfold TokenKind.ofDelimiter? at hc
  split at hc <;> simp at hc ⊢

lemma isReadAs_delimiter {c : Char} {kind : TokenKind} (hc : TokenKind.ofDelimiter? c = some kind)
    (rest : List Char) : IsReadAs [c] rest kind (.text (String.ofList [c])) where
  gapFrom_eq n := by
    have hall : ∀ c ∈ ['(', ')', '[', ']', '\x7b', '\x7d', ',', ':'],
        isLayout c = false ∧ c ≠ '#' ∧ c ≠ '/' := by
      simp only [List.forall_mem_cons, List.not_mem_nil, false_imp_iff, implies_true]
      decide
    obtain ⟨hlayout, hhash, hslash⟩ := hall c (ofDelimiter?_cases hc)
    exact gapFrom_eq_self hlayout hhash hslash n rest
  exists_scan := by
    have hall : ∀ c ∈ ['(', ')', '[', ']', '\x7b', '\x7d', ',', ':'], c ≠ '\n' ∧
        Lexeme.isNameStart c = false ∧ isDigit c = false ∧ (c = '\'' || c = '"') = false ∧
        c ≠ '@' := by
      simp only [List.forall_mem_cons, List.not_mem_nil, false_imp_iff, implies_true]
      decide
    obtain ⟨hnewline, hname, hdigit, hquote, hat⟩ := hall c (ofDelimiter?_cases hc)
    refine ⟨c, rest, ⟨kind, .text (String.ofList [c]), 1, by omega⟩, rfl, ?_, rfl, rfl, rfl⟩
    rw [Lexeme.scan, if_neg hnewline, if_neg (by simp [hname]), dif_neg (by simp [hdigit]),
      if_neg (by simp [hquote]), if_neg hat, hc]

/-- The text of a delimiter. -/
def Spelling.ofDelimiter (c : Char) (kind : TokenKind)
    (hc : TokenKind.ofDelimiter? c = some kind) : Spelling where
  text := [c]
  kind := kind
  value := .text (String.ofList [c])
  gapFrom_eq n rest _ := (isReadAs_delimiter hc rest).gapFrom_eq n
  exists_scan rest _ := (isReadAs_delimiter hc rest).exists_scan

end LineScript
