import LineScript.Proofs.Decimal.Numeral
import LineScript.Proofs.Token.Reading
import LineScript.Proofs.Token.Vocabulary

/-!
# Numerals that have no value

A numeral is told by its digits, but not every digit has a decimal value, and no integer with too
many digits is read. Reading fails without a complaint exactly where it comes to such a numeral
(`tokens_eq_numeral_iff`).
-/

namespace LineScript

open Text

namespace Lexeme

/-- The digits behind the digits of a numeral and a point. -/
def fractionOf (text : List Char) : List Char :=
  match text.dropWhile isDigit with
  | '.' :: rest => rest.takeWhile isDigit
  | _ => []

/-- The text begins with a numeral that cannot be read: a digit has no decimal value, or there are
too many digits and no point. -/
def IsUnreadable (text : List Char) : Prop :=
  let whole := text.takeWhile isDigit
  whole ≠ [] ∧ isHexMark text = false ∧
    ¬(Numeral.AreDecimal (whole ++ fractionOf text) ∧
      (fractionOf text = [] → whole.length ≤ Numeral.maxDigits))

variable {first quote : Char} {text : List Char}

lemma toNat_of_isDigit {c : Char} (h : isDigit c = true) :
    (digitValue? c).isSome = true ∨ 0xB2 ≤ c.toNat := by
  have hall : ∀ range ∈ otherDigits, 0xB2 ≤ range.1 := by decide
  rcases Bool.or_eq_true _ _ |>.mp h with h | h
  · exact Or.inl h
  · obtain ⟨range, hrange, hle, -⟩ := (CodeRanges.contains_iff _ _).mp h
    exact Or.inr ((hall range hrange).trans hle)

lemma toNat_lt_of_isNameStart {c : Char} (h : isNameStart c = true) : c.toNat < 0xB2 := by
  have hnat : c.toNat = c.val.toNat := rfl
  simp only [isNameStart, Bool.or_eq_true, Bool.and_eq_true, decide_eq_true_eq, Char.le_def,
    UInt32.le_iff_toNat_le] at h
  rcases h with (⟨-, h⟩ | ⟨-, h⟩) | rfl
  · simp at h
    omega
  · simp at h
    omega
  · decide

lemma isNameStart_eq_false_of_isDigit {c : Char} (h : isDigit c = true) :
    isNameStart c = false := by
  rcases toNat_of_isDigit h with h | h
  · exact isNameStart_eq_false h
  · rw [Bool.eq_false_iff]
    intro hname
    have hlt := toNat_lt_of_isNameStart hname
    omega

lemma decimal_of_integer (h : 0 < (text.takeWhile isDigit).length) (hnil : fractionOf text = []) :
    decimal text h = ((Numeral.readNatural (text.takeWhile isDigit)).map fun n =>
      ⟨.number, .int n, (text.takeWhile isDigit).length, h⟩).mapError .numeral := by
  have hempty : (fractionOf text).isEmpty = true := by simp [hnil]
  refine (if_pos hempty).trans ?_
  cases Numeral.readNatural (text.takeWhile isDigit) <;> rfl

lemma isDigit_of_mem_fractionOf {c : Char} (h : c ∈ fractionOf text) : isDigit c = true := by
  unfold fractionOf at h
  split at h
  · exact List.mem_takeWhile_imp h
  · cases h

lemma decimal_of_fraction (h : 0 < (text.takeWhile isDigit).length) (hne : fractionOf text ≠ []) :
    decimal text h = ((Numeral.readFloat (text.takeWhile isDigit) (fractionOf text)).map fun x =>
      ⟨.number, .float x, (text.takeWhile isDigit).length + 1 + (fractionOf text).length,
        by omega⟩).mapError .numeral := by
  have hempty : ¬(fractionOf text).isEmpty = true := by simp [hne]
  have hparse : Numeral.parseFloat (text.takeWhile isDigit ++ '.' :: fractionOf text) =
      Numeral.readFloat (text.takeWhile isDigit) (fractionOf text) :=
    Numeral.parseFloat_of_isDigit (List.length_pos_iff.mp h) (fun c => List.mem_takeWhile_imp)
      fun c => isDigit_of_mem_fractionOf
  rw [← hparse]
  refine (if_neg hempty).trans ?_
  split
  · next x hresult =>
    have hread : Numeral.parseFloat (text.takeWhile isDigit ++ '.' :: fractionOf text) = .ok x :=
      hresult
    rw [hread]
    rfl
  · next fault hresult =>
    have hread : Numeral.parseFloat (text.takeWhile isDigit ++ '.' :: fractionOf text) =
        .error fault := hresult
    rw [hread]
    rfl

/-- A decimal numeral is read, or it has no value. -/
lemma decimal_eq_numeral_iff (h : 0 < (text.takeWhile isDigit).length) :
    (∃ fault, decimal text h = .error (.numeral fault)) ↔
      ¬(Numeral.AreDecimal (text.takeWhile isDigit ++ fractionOf text) ∧
        (fractionOf text = [] → (text.takeWhile isDigit).length ≤ Numeral.maxDigits)) := by
  by_cases hnil : fractionOf text = []
  · have hread := Numeral.exists_readNatural_iff (text.takeWhile isDigit)
    rw [decimal_of_integer h hnil, hnil, List.append_nil]
    cases hresult : Numeral.readNatural (text.takeWhile isDigit) with
    | ok n =>
      obtain ⟨hdecimal, hlength⟩ := hread.mp ⟨n, hresult⟩
      simp [Except.map, Except.mapError, hdecimal, hlength]
    | error fault =>
      refine iff_of_true ⟨fault, rfl⟩ ?_
      rintro ⟨hdecimal, hlength⟩
      obtain ⟨n, hn⟩ := hread.mpr ⟨hdecimal, hlength rfl⟩
      cases hresult.symm.trans hn
  · have hread := Numeral.exists_readFloat_iff (text.takeWhile isDigit) (fractionOf text)
    rw [decimal_of_fraction h hnil]
    cases hresult : Numeral.readFloat (text.takeWhile isDigit) (fractionOf text) with
    | ok x => simp [Except.map, Except.mapError, hnil, hread.mp ⟨x, hresult⟩]
    | error fault =>
      refine iff_of_true ⟨fault, rfl⟩ fun h => ?_
      obtain ⟨x, hx⟩ := hread.mpr h.1
      cases hresult.symm.trans hx

lemma hexadecimal_ne_numeral (text : List Char) (fault : Numeral.Fault) :
    hexadecimal text ≠ .error (.numeral fault) := by
  unfold hexadecimal
  dsimp only
  split_ifs <;> simp

lemma string_ne_numeral (quote : Char) (text : List Char) (fault : Numeral.Fault) :
    string quote text ≠ .error (.numeral fault) := by
  unfold string
  split <;> simp

/-- Only a numeral without a value keeps a lexeme from being read and is no fault of syntax. -/
theorem scan_eq_numeral_iff :
    (∃ fault, scan first text = .error (.numeral fault)) ↔ IsUnreadable (first :: text) := by
  have hwhole : (first :: text).takeWhile isDigit ≠ [] ↔ isDigit first = true := by
    cases h : isDigit first <;> simp [h]
  unfold IsUnreadable
  dsimp only
  rw [hwhole]
  cases hdigit : isDigit first with
  | false =>
    refine iff_of_false ?_ (by simp)
    rintro ⟨fault, hfault⟩
    unfold scan at hfault
    split_ifs at hfault with hnewline hname hdigit' hquote hat
    · exact absurd hdigit' (by simp [hdigit])
    · exact string_ne_numeral _ _ _ hfault
    · split at hfault <;> cases hfault
    · split at hfault
      · cases hfault
      · split at hfault <;> cases hfault
  | true =>
    have hnewline : first ≠ '\n' := by
      rintro rfl
      exact absurd hdigit (by decide)
    rw [scan, if_neg hnewline, if_neg (by simp [isNameStart_eq_false_of_isDigit hdigit]),
      dif_pos hdigit, number]
    split_ifs with hhex
    · simp [hhex, hexadecimal_ne_numeral]
    · simp [hhex, decimal_eq_numeral_iff]

end Lexeme

/-! ### Reading a source -/

/-- Reading one text comes to another, at which a lexeme begins or the source ends. -/
inductive ComesTo : List Char → List Char → Prop where
  | gap {text : List Char} {n : Nat} (hgap : Lexeme.gap text = .ok n) : ComesTo text (text.drop n)
  | lexeme {text rest target : List Char} {n : Nat} {first : Char} {lexeme : Lexeme}
      (hgap : Lexeme.gap text = .ok n) (hrest : text.drop n = first :: rest)
      (hscan : Lexeme.scan first rest = .ok lexeme)
      (h : ComesTo ((first :: rest).drop lexeme.size) target) : ComesTo text target

lemma comesTo_iff {text target : List Char} {n : Nat} (hgap : Lexeme.gap text = .ok n) :
    ComesTo text target ↔ target = text.drop n ∨ ∃ first rest lexeme, text.drop n = first :: rest ∧
      Lexeme.scan first rest = .ok lexeme ∧ ComesTo ((first :: rest).drop lexeme.size) target := by
  constructor
  · intro h
    cases h with
    | gap hgap' =>
      obtain rfl := Except.ok.inj (hgap.symm.trans hgap')
      exact Or.inl rfl
    | lexeme hgap' hrest hscan h =>
      obtain rfl := Except.ok.inj (hgap.symm.trans hgap')
      exact Or.inr ⟨_, _, _, hrest, hscan, h⟩
  · rintro (rfl | ⟨first, rest, lexeme, hrest, hscan, h⟩)
    · exact .gap hgap
    · exact .lexeme hgap hrest hscan h

namespace Lexed

open Lexeme

lemma failure_cons (t : Token) (l : Lexed) : (l.cons t).failure = l.failure := rfl

/-- Reading from a cursor fails without a complaint where it comes to an unreadable numeral. -/
theorem failure_eq_numeral_iff (file : String) (c : Cursor) :
    (∃ fault, (tokensFrom file c).failure = some (.numeral fault)) ↔
      ∃ text, ComesTo c.rest text ∧ IsUnreadable text := by
  fun_induction tokensFrom file c with
  | case1 c start hgap here place =>
    refine iff_of_false (by simp) ?_
    rintro ⟨text, hcomes, -⟩
    cases hcomes with
    | gap hgap' | lexeme hgap' => cases hgap.symm.trans hgap'
  | case2 c n hgap here hrest =>
    have hdrop : c.rest.drop n = [] := by rw [← Cursor.rest_skip]; exact hrest
    refine iff_of_false (by simp) ?_
    rintro ⟨text, hcomes, hunreadable⟩
    rcases (comesTo_iff hgap).mp hcomes with rfl | ⟨first, rest, -, hcons, -⟩
    · rw [hdrop] at hunreadable
      exact hunreadable.1 rfl
    · cases hdrop.symm.trans hcons
  | case3 c n hgap here first rest hrest fault hscan =>
    have hdrop : c.rest.drop n = first :: rest := by rw [← Cursor.rest_skip]; exact hrest
    have hcomes : (∃ text, ComesTo c.rest text ∧ IsUnreadable text) ↔
        IsUnreadable (first :: rest) := by
      constructor
      · rintro ⟨text, hcomes, hunreadable⟩
        rcases (comesTo_iff hgap).mp hcomes with rfl | ⟨first', rest', lexeme, hcons, hscan', -⟩
        · rwa [hdrop] at hunreadable
        · obtain ⟨rfl, rfl⟩ := List.cons.inj (hdrop.symm.trans hcons)
          cases hscan.symm.trans hscan'
      · exact fun hunreadable => ⟨_, .gap hgap, hdrop ▸ hunreadable⟩
    rw [hcomes, ← scan_eq_numeral_iff, hscan]
    cases fault <;> simp [scanFailure]
  | case4 c n hgap here first rest hrest lexeme hscan after token ih =>
    have hdrop : c.rest.drop n = first :: rest := by rw [← Cursor.rest_skip]; exact hrest
    have hafter : after.rest = (first :: rest).drop lexeme.size := by
      rw [← hrest]; exact Cursor.rest_skip _ _
    rw [hafter] at ih
    rw [failure_cons, ih]
    refine exists_congr fun text => and_congr_left fun hunreadable => ?_
    rw [comesTo_iff hgap]
    constructor
    · exact fun h => Or.inr ⟨first, rest, lexeme, hdrop, hscan, h⟩
    · rintro (rfl | ⟨first', rest', lexeme', hcons, hscan', h⟩)
      · -- the lexeme here was read, so it is no numeral without a value
        rw [hdrop] at hunreadable
        obtain ⟨fault, hfault⟩ := scan_eq_numeral_iff.mpr hunreadable
        cases hscan.symm.trans hfault
      · obtain ⟨rfl, rfl⟩ := List.cons.inj (hdrop.symm.trans hcons)
        obtain rfl := Except.ok.inj (hscan.symm.trans hscan')
        exact h

/-- Reading fails with a diagnostic or because of a numeral. -/
lemma failure_cases (file : String) (c : Cursor) : (tokensFrom file c).failure = none ∨
    (∃ d, (tokensFrom file c).failure = some (.diagnostic d)) ∨
      ∃ fault, (tokensFrom file c).failure = some (.numeral fault) := by
  fun_induction tokensFrom file c with
  | case1 => exact Or.inr (Or.inl ⟨_, rfl⟩)
  | case2 => exact Or.inl rfl
  | case3 c n hgap here first rest hrest fault hscan =>
    cases fault with
    | badSyntax => exact Or.inr (Or.inl ⟨_, rfl⟩)
    | numeral => exact Or.inr (Or.inr ⟨_, rfl⟩)
  | case4 => assumption

end Lexed

/-- A source has no tokens and no complaint where reading comes to a numeral that is unreadable. -/
theorem tokens_eq_numeral_iff {source file : String} :
    (∃ fault, tokens source file = .error (.numeral fault)) ↔
      ∃ text, ComesTo source.toList text ∧ Lexeme.IsUnreadable text := by
  refine Iff.trans ?_ (Lexed.failure_eq_numeral_iff file (.start source.toList 1))
  unfold tokens Lexed.result Lexed.ofSource
  cases (Lexed.tokensFrom file (.start source.toList 1)).failure <;> simp

/-- A source is read, or there is a diagnostic, or a numeral that is unreadable. -/
lemma tokens_cases (source file : String) : (∃ ts, tokens source file = .ok ts) ∨
    (∃ d, tokens source file = .error (.diagnostic d)) ∨
      ∃ fault, tokens source file = .error (.numeral fault) := by
  unfold tokens Lexed.result Lexed.ofSource
  obtain hnone | ⟨d, hd⟩ | ⟨fault, hfault⟩ :=
    Lexed.failure_cases file (.start source.toList 1)
  · simp [hnone]
  · simp [hd]
  · simp [hfault]

/-! ### Values of tokens -/

lemma Lexeme.kind_of_isTooLarge {first : Char} {text : List Char} {lexeme : Lexeme}
    (h : scan first text = .ok lexeme) (hlarge : lexeme.value.isTooLarge = true) :
    lexeme.kind = .number := by
  unfold scan at h
  split_ifs at h with hnewline hname hdigit hquote hat
  · obtain rfl := Except.ok.inj h
    cases hlarge
  · obtain rfl := Except.ok.inj h
    cases hlarge
  · exact kind_of_number h
  · unfold string at h
    split at h
    · obtain rfl := Except.ok.inj h
      cases hlarge
    · cases h
  · split at h
    · next hvariable =>
      obtain rfl := Except.ok.inj h
      simp only [atVariable] at hvariable
      split_ifs at hvariable
      obtain rfl := Option.some.inj hvariable
      cases hlarge
    · cases h
  · split at h
    · obtain rfl := Except.ok.inj h
      cases hlarge
    · split at h
      · obtain rfl := Except.ok.inj h
        cases hlarge
      · cases h

/-- Only numbers that are read can be too large to be written. -/
lemma Reads.kind_of_isTooLarge {file : String} {c : Cursor} {ts : List Token} {t : Token}
    (h : Reads file c ts) (ht : t ∈ ts) (hlarge : t.value.isTooLarge = true) :
    t.kind = .number := by
  induction h with
  | last hgap hrest =>
    obtain rfl := List.mem_singleton.mp ht
    cases hlarge
  | lexeme hgap hrest hscan h ih =>
    rcases List.mem_cons.mp ht with rfl | ht
    · exact Lexeme.kind_of_isTooLarge hscan hlarge
    · exact ih ht

end LineScript
