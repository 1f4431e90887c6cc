import LineScript.Proofs.Text.Lines
import LineScript.Proofs.Token.Writing
import LineScript.Text.Quoted
import LineScript.Value

/-!
# Line feeds

A text has one line more than line feeds, and pieces of text with line feeds between them have the
lines of each piece. Between quotes a line feed is written by its letter, and no number is written
with one. A constant is therefore rendered on one line (`Value.lineFeeds_render`).
-/

namespace LineScript

namespace Text

variable {s t : String} {text : List Char} {quote c : Char}

/-- The number of line feeds in a text. -/
def lineFeeds (s : String) : ℕ := s.toList.count '\n'

@[simp] lemma lineFeeds_append (s t : String) : lineFeeds (s ++ t) = lineFeeds s + lineFeeds t := by
  simp [lineFeeds]

lemma lineFeeds_ofList (text : List Char) : lineFeeds (String.ofList text) = text.count '\n' := by
  simp [lineFeeds]

lemma lineFeeds_eq_zero_iff : lineFeeds s = 0 ↔ '\n' ∉ s.toList :=
  List.count_eq_zero

/-! ### Lines -/

lemma length_splitOn_newline (text : List Char) :
    (text.splitOn '\n').length = text.count '\n' + 1 := by
  obtain ⟨lines, front, rfl, hlines, hfront, hcount, -⟩ := exists_eq_ended_append text
  rw [splitOn_ended_append hlines, splitOn_newline_of_not_mem hfront, ← hcount, List.length_append]
  rfl

/-- Pieces with line feeds between them have the lines of each piece. -/
lemma splitOn_intercalate {pieces : List String} (h : pieces ≠ []) :
    ("\n".intercalate pieces).toList.splitOn '\n' =
      pieces.flatMap (·.toList.splitOn '\n') := by
  induction pieces with
  | nil => exact absurd rfl h
  | cons s pieces ih =>
    cases pieces with
    | nil => simp
    | cons t pieces =>
      have htext : ("\n".intercalate (s :: t :: pieces)).toList =
          s.toList ++ '\n' :: ("\n".intercalate (t :: pieces)).toList := by
        simp [String.intercalate_cons_cons]
      rw [htext, splitOn_newline_append, ih (by simp), List.flatMap_cons (x := s)]

/-! ### Quoted texts -/

lemma newline_not_mem_hex (width n : ℕ) : '\n' ∉ hex width n := by
  intro h
  rcases List.mem_append.mp h with h | h
  · exact absurd (List.eq_of_mem_replicate h) (by decide)
  · exact absurd (hexDigitValue?_of_mem_toDigits _ h) (by decide)

lemma newline_not_mem_quoteChar (hquote : quote ≠ '\n') (c : Char) : '\n' ∉ quoteChar quote c := by
  unfold quoteChar
  split_ifs with hmeaning hfeed hreturn htab hprintable
  · have hc : c ≠ '\n' := by
      rintro rfl
      simp [hquote.symm] at hmeaning
    simpa using hc.symm
  · decide
  · decide
  · decide
  · simpa using Ne.symm hfeed
  all_goals simp [newline_not_mem_hex]

lemma lineFeeds_quoted (s : String) : lineFeeds (quoted s) = 0 := by
  have hquote : quoteFor s.toList ≠ '\n' := by
    unfold quoteFor
    split_ifs <;> decide
  rw [quoted, lineFeeds_ofList, List.count_eq_zero]
  simp [quotedChars, hquote.symm, newline_not_mem_quoteChar hquote]

/-! ### Numbers -/

@[simp] lemma lineFeeds_natToString (n : ℕ) : lineFeeds (toString n) = 0 := by
  have hdigits : '\n' ∉ Nat.toDigits 10 n := fun h =>
    absurd (Nat.isDigit_of_mem_toDigits (by decide) (by decide) h) (by decide)
  have htext : toString n = String.ofList (Nat.toDigits 10 n) := rfl
  rw [htext, lineFeeds_ofList, List.count_eq_zero.mpr hdigits]

lemma lineFeeds_intToString (n : ℤ) : lineFeeds (toString n) = 0 := by
  cases n with
  | ofNat n => exact lineFeeds_natToString n
  | negSucc n =>
    have htext : toString (Int.negSucc n) = "-" ++ toString (n + 1) := rfl
    rw [htext, lineFeeds_append, lineFeeds_natToString]
    rfl

end Text

namespace Binary64

open Text

variable {digits : String}

@[simp] lemma lineFeeds_zeros (n : ℕ) : lineFeeds (zeros n) = 0 := by
  rw [zeros, lineFeeds_ofList, List.count_eq_zero]
  exact fun h => absurd (List.eq_of_mem_replicate h) (by decide)

lemma lineFeeds_take (h : lineFeeds digits = 0) (n : ℕ) :
    lineFeeds (String.ofList (digits.toList.take n)) = 0 := by
  rw [lineFeeds_ofList, List.count_eq_zero]
  exact fun hmem => lineFeeds_eq_zero_iff.mp h (List.mem_of_mem_take hmem)

lemma lineFeeds_drop (h : lineFeeds digits = 0) (n : ℕ) :
    lineFeeds (String.ofList (digits.toList.drop n)) = 0 := by
  rw [lineFeeds_ofList, List.count_eq_zero]
  exact fun hmem => lineFeeds_eq_zero_iff.mp h (List.mem_of_mem_drop hmem)

lemma lineFeeds_positional (h : lineFeeds digits = 0) (count : ℤ) :
    lineFeeds (positional digits count) = 0 := by
  unfold positional
  dsimp only
  split_ifs
  · rw [lineFeeds_append, lineFeeds_append, lineFeeds_zeros, h]
    rfl
  · rw [lineFeeds_append, lineFeeds_append, lineFeeds_zeros, h]
    rfl
  · rw [lineFeeds_append, lineFeeds_append, lineFeeds_take h, lineFeeds_drop h]
    rfl

lemma lineFeeds_withExponent (h : lineFeeds digits = 0) (l : Layout) (power : ℤ) :
    lineFeeds (withExponent l digits power) = 0 := by
  unfold withExponent
  simp only [lineFeeds_append, lineFeeds_take h, lineFeeds_drop h, lineFeeds_zeros,
    lineFeeds_natToString]
  split_ifs <;> rfl

lemma lineFeeds_write (l : Layout) (digits : ℕ) (scale : ℤ) :
    lineFeeds (Layout.write l digits scale) = 0 := by
  unfold Layout.write
  dsimp only
  split_ifs
  · exact lineFeeds_positional (lineFeeds_natToString digits) _
  · exact lineFeeds_withExponent (lineFeeds_natToString digits) _ _

lemma lineFeeds_text (x : Binary64) : lineFeeds x.text = 0 := by
  cases x with
  | nan => rfl
  | infinite negative => cases negative <;> rfl
  | finite negative significand exponent =>
    have hsign : ∀ s, lineFeeds ((if negative then "-" else "") ++ s) = lineFeeds s := by
      intro s
      cases negative <;> simp [lineFeeds]
    rw [text]
    by_cases hzero : significand = 0
    · rw [if_pos hzero, hsign]
      rfl
    · rw [if_neg hzero, hsign]
      exact lineFeeds_write layout _ _

end Binary64

namespace Value

open Text

/-- A constant is rendered without line feeds. -/
lemma lineFeeds_render (v : Value) : lineFeeds v.render = 0 := by
  cases v with
  | null => rfl
  | bool b => cases b <;> rfl
  | text s => exact lineFeeds_quoted s
  | int n => exact lineFeeds_intToString n
  | float x => exact x.lineFeeds_text

/-- Only texts have line feeds. -/
lemma lineFeeds_plain {v : Value} (h : ∀ s, v ≠ .text s) : lineFeeds v.plain = 0 := by
  cases v with
  | null => rfl
  | bool b => cases b <;> rfl
  | text s => exact absurd rfl (h s)
  | int n => exact lineFeeds_intToString n
  | float x => exact x.lineFeeds_text

end Value

end LineScript
