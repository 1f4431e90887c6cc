import LineScript.Decimal.Numeral
import Mathlib.Data.List.TakeWhile

/-!
# Numbers that digits spell

An integer is read if all its digits are decimal and there are not too many of them. Floating point
numbers have more spellings than a script can hold: of digits with a point between them nothing is
a sign, a blank, the name of a number or the mark of an exponent, so that they are read as they
stand, if all of them are decimal.
-/

namespace LineScript

open Text

namespace Numeral

variable {whole fraction text : List Char}

/-- Every digit of the text has a decimal value. -/
def AreDecimal (text : List Char) : Prop := ∀ c ∈ text, (digitValue? c).isSome = true

/-! ### Integers -/

lemma exists_readNatural_iff (text : List Char) :
    (∃ n, readNatural text = .ok n) ↔ AreDecimal text ∧ text.length ≤ maxDigits := by
  have hdecimal : AreDecimal text ↔ text.takeWhile (fun c => (digitValue? c).isSome) = text :=
    List.takeWhile_eq_self_iff.symm
  have hlength : (text.takeWhile fun c => (digitValue? c).isSome).length = text.length ↔
      AreDecimal text :=
    ⟨fun h => hdecimal.mpr ((List.takeWhile_prefix _).eq_of_length h),
      fun h => congrArg List.length (hdecimal.mp h)⟩
  unfold readNatural
  dsimp only
  split_ifs with hlong hall
  · refine iff_of_false (by simp) ?_
    rintro ⟨hall, hle⟩
    rw [hlength.mpr hall] at hlong
    omega
  · exact iff_of_true ⟨_, rfl⟩ ⟨hlength.mp hall, by omega⟩
  · exact iff_of_false (by simp) fun h => hall (hlength.mpr h.1)

/-! ### Digits with points -/

lemma isSpace_eq_false_of_isDigit {c : Char} (h : isDigit c = true) : isSpace c = false := by
  have hdecimal : ∀ first ∈ decimalZeros, ∀ range ∈ spaces,
      first + 9 < range.1 ∨ range.2 < first := by decide
  have hother : ∀ digits ∈ otherDigits, ∀ range ∈ spaces,
      digits.2 < range.1 ∨ range.2 < digits.1 := by decide
  rw [Bool.eq_false_iff]
  intro hspace
  obtain ⟨range, hrange, hle, hge⟩ := (CodeRanges.contains_iff _ _).mp hspace
  rcases Bool.or_eq_true _ _ |>.mp h with h | h
  · simp only [digitValue?, Option.isSome_map, List.find?_isSome, Bool.and_eq_true,
      decide_eq_true_eq] at h
    obtain ⟨first, hfirst, hbounds⟩ := h
    have hapart := hdecimal first hfirst range hrange
    omega
  · obtain ⟨digits, hdigits, hbounds⟩ := (CodeRanges.contains_iff _ _).mp h
    have hapart := hother digits hdigits range hrange
    omega

/-- The text is made of digits and points. -/
def IsPointed (text : List Char) : Prop := ∀ c ∈ text, c = '.' ∨ isDigit c = true

namespace IsPointed

lemma not_mem {c : Char} (h : IsPointed text) (hpoint : c ≠ '.') (hc : isDigit c = false) :
    c ∉ text := by
  intro hmem
  rcases h c hmem with rfl | hdigit
  · exact hpoint rfl
  · exact Bool.false_ne_true (hc.symm.trans hdigit)

lemma trimmed_eq (h : IsPointed text) : trimmed isSpace text = text := by
  have hspace : ∀ c ∈ text, isSpace c = false := by
    intro c hc
    rcases h c hc with rfl | hdigit
    · decide
    · exact isSpace_eq_false_of_isDigit hdigit
  have hdrop : ∀ l : List Char, (∀ c ∈ l, isSpace c = false) → l.dropWhile isSpace = l := by
    intro l hl
    cases l with
    | nil => rfl
    | cons c l => exact List.dropWhile_cons_of_neg (by simp [hl c])
  rw [trimmed, hdrop text hspace, hdrop text.reverse (by simpa using hspace), List.reverse_reverse]

lemma splitSign_eq (h : IsPointed text) : splitSign text = (false, text) := by
  unfold splitSign
  split
  · exact absurd List.mem_cons_self (h.not_mem (by decide) (by decide))
  · exact absurd List.mem_cons_self (h.not_mem (by decide) (by decide))
  · rfl

lemma underscoresSeparate (h : IsPointed text) : underscoresSeparate text = true := by
  have hgo : ∀ (isDecimal : Char → Bool) (text : List Char) (afterDigit : Bool), '_' ∉ text →
      underscoresSeparate.go isDecimal afterDigit text = true := by
    intro isDecimal text
    induction text with
    | nil => exact fun _ _ => rfl
    | cons c text ih =>
      intro afterDigit hmem
      rw [List.mem_cons, not_or] at hmem
      rw [underscoresSeparate.go]
      · simp [Ne.symm hmem.1, ih _ hmem.2]
      · rintro d rest rfl
        exact absurd rfl hmem.1
  exact hgo _ text false (h.not_mem (by decide) (by decide))

lemma filter_eq (h : IsPointed text) : text.filter (· ≠ '_') = text := by
  refine List.filter_eq_self.mpr fun c hc => decide_eq_true ?_
  rintro rfl
  exact h.not_mem (by decide) (by decide) hc

lemma splitExponent_eq (h : IsPointed text) : splitExponent text = some (text, 0) := by
  have hmarks : ∀ c ∈ text, (!(decide (c = 'e') || decide (c = 'E'))) = true := by
    intro c hc
    have hlower : c ≠ 'e' := fun heq => h.not_mem (by decide) (by decide) (heq ▸ hc)
    have hupper : c ≠ 'E' := fun heq => h.not_mem (by decide) (by decide) (heq ▸ hc)
    simp [hlower, hupper]
  have htake := List.takeWhile_eq_self_iff.mpr hmarks
  have hdrop := List.dropWhile_eq_nil_iff.mpr hmarks
  unfold splitExponent
  dsimp only
  rw [htake, hdrop]

/-- The names of infinity and of not-a-number have no point. -/
lemma ofList_map_toLower_ne {name : String} (hname : '.' ∉ name.toList) (hpoint : '.' ∈ text) :
    String.ofList (text.map Char.toLower) ≠ name := by
  rintro rfl
  exact hname (by simpa using ⟨'.', hpoint, rfl⟩)

lemma guard_bind_eq_ite {α : Type} (b : Bool) (x : Option α) :
    (guard (b = true) >>= fun _ => x) = if b = true then x else none := by
  cases b <;> rfl

/-- With a point among digits only these are left to be read. -/
lemma float?_eq (h : IsPointed text) (hpoint : '.' ∈ text) :
    float? text =
      let fraction := (text.dropWhile (· ≠ '.')).drop 1
      let digits := text.takeWhile (· ≠ '.') ++ fraction
      if (!digits.isEmpty && digits.all fun c => (digitValue? c).isSome) = true then
        some (.ofDecimal false (ofDigits 10 (digitValues digits)) (0 - fraction.length))
      else none := by
  have hinfinite : ¬(decide (String.ofList (text.map Char.toLower) = "inf") ||
      decide (String.ofList (text.map Char.toLower) = "infinity")) = true := by
    rw [decide_eq_false (ofList_map_toLower_ne (by decide) hpoint),
      decide_eq_false (ofList_map_toLower_ne (by decide) hpoint)]
    exact Bool.false_ne_true
  unfold float?
  rw [h.trimmed_eq, h.splitSign_eq]
  dsimp only
  rw [if_neg hinfinite, if_neg (ofList_map_toLower_ne (by decide) hpoint), h.underscoresSeparate,
    h.filter_eq, h.splitExponent_eq, guard_bind_eq_ite true, if_pos rfl]
  exact guard_bind_eq_ite _ _

end IsPointed

/-! ### Fractions -/

/-- The number that digits on both sides of a point spell. -/
def readFloat (whole fraction : List Char) : Except Fault Binary64 :=
  let digits := whole ++ fraction
  if digits.all fun c => (digitValue? c).isSome then
    .ok (.ofDecimal false (ofDigits 10 (digitValues digits)) (-(fraction.length : Int)))
  else .error (.notFloat (String.ofList (whole ++ '.' :: fraction)))

lemma exists_readFloat_iff (whole fraction : List Char) :
    (∃ x, readFloat whole fraction = .ok x) ↔ AreDecimal (whole ++ fraction) := by
  unfold readFloat AreDecimal
  simp only [← List.all_eq_true]
  split_ifs with hall
  · simp [hall]
  · simp [hall]

/-- Nothing but digits and a point is what a fraction is read from. -/
theorem parseFloat_of_isDigit (hne : whole ≠ []) (hwhole : ∀ c ∈ whole, isDigit c = true)
    (hfraction : ∀ c ∈ fraction, isDigit c = true) :
    parseFloat (whole ++ '.' :: fraction) = readFloat whole fraction := by
  have hpointed : IsPointed (whole ++ '.' :: fraction) := by
    intro c hc
    rcases List.mem_append.mp hc with hc | hc
    · exact .inr (hwhole c hc)
    · exact (List.mem_cons.mp hc).imp_right (hfraction c)
  have hbefore : ∀ c ∈ whole, decide (c ≠ '.') = true := by
    intro c hc
    refine decide_eq_true ?_
    rintro rfl
    exact Bool.false_ne_true (hwhole _ hc)
  have htake : (whole ++ '.' :: fraction).takeWhile (· ≠ '.') = whole := by
    rw [List.takeWhile_append_of_pos hbefore, List.takeWhile_cons_of_neg (by decide),
      List.append_nil]
  have hdrop : (whole ++ '.' :: fraction).dropWhile (· ≠ '.') = '.' :: fraction := by
    rw [List.dropWhile_append_of_pos hbefore, List.dropWhile_cons_of_neg (by decide)]
  have hnonempty : (whole ++ fraction).isEmpty = false := by simp [hne]
  unfold parseFloat readFloat
  rw [hpointed.float?_eq (by simp)]
  dsimp only
  rw [htake, hdrop, List.drop_one, List.tail_cons, hnonempty, Bool.not_false, Bool.true_and,
    Int.zero_sub]
  split_ifs <;> rfl

end Numeral

end LineScript
