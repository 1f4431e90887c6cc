import LineScript.Text.Lines
import Mathlib.Data.List.Infix
import Mathlib.Data.List.TakeWhile
import Mathlib.Tactic.Common

/-!
# Lines that are counted and lines that are shown

The lines of a source are counted by its line feeds alone, but it is cut for display at other line
boundaries too. Where all lines before a line are plain, the line with its number is the one that is
shown, up to the first boundary in it; behind a line that is not plain a line from further up is
shown (`getElem?_linesAfter_of_isPlain` and `getElem?_linesAfter_of_not_isPlain`).
-/

namespace LineScript

namespace Text

variable {line shown text rest : List Char} {lines : List (List Char)} {isOpen : Bool}

/-- What is shown is the line, a carriage return at its end aside. -/
def IsShown (shown line : List Char) : Prop := line = shown ∨ line = shown ++ ['\r']

/-- The line up to the first boundary in it. -/
def upToBoundary (line : List Char) : List Char := line.takeWhile fun c => !isLineBoundary c

/-- The line has no boundary, a carriage return at its end aside. -/
def IsPlain (line : List Char) : Prop :=
  ∃ body, IsShown body line ∧ ∀ c ∈ body, isLineBoundary c = false

@[simp] lemma isLineBoundary_newline : isLineBoundary '\n' = true := by decide

@[simp] lemma isLineBoundary_return : isLineBoundary '\r' = true := by decide

lemma upToBoundary_append_boundary {body : List Char} {c : Char} (hc : isLineBoundary c = true) :
    upToBoundary (body ++ c :: rest) = upToBoundary body := by
  unfold upToBoundary
  induction body with
  | nil => simp [hc]
  | cons d body ih => cases hd : isLineBoundary d <;> simp [hd, ih]

lemma upToBoundary_eq_self (h : ∀ c ∈ line, isLineBoundary c = false) : upToBoundary line = line :=
  List.takeWhile_eq_self_iff.mpr fun c hc => by simp [h c hc]

/-- A line is plain if it is shown where it is shown up to its first boundary. -/
lemma isPlain_iff : IsPlain line ↔ IsShown (upToBoundary line) line := by
  constructor
  · rintro ⟨body, rfl | rfl, hbody⟩
    · exact Or.inl (upToBoundary_eq_self hbody).symm
    · rw [upToBoundary_append_boundary isLineBoundary_return, upToBoundary_eq_self hbody]
      exact Or.inr rfl
  · refine fun h => ⟨_, h, fun c hc => ?_⟩
    simpa using List.mem_takeWhile_imp hc

lemma isPlain_nil : IsPlain [] := ⟨[], Or.inl rfl, by simp⟩

lemma isPlain_cons_of_boundary {c : Char} (hc : isLineBoundary c = true) :
    IsPlain (c :: line) ↔ c = '\r' ∧ line = [] := by
  simp [isPlain_iff, IsShown, upToBoundary, hc]

lemma isPlain_cons {c : Char} (hc : isLineBoundary c = false) :
    IsPlain (c :: line) ↔ IsPlain line := by
  simp [isPlain_iff, IsShown, upToBoundary, hc]

/-! ### Cutting at boundaries -/

@[simp] lemma linesAfter_nil_open : linesAfter line true [] = [line.reverse] := by
  rw [linesAfter.eq_def]
  rfl

@[simp] lemma linesAfter_nil_closed : linesAfter line false [] = [] := by
  rw [linesAfter.eq_def]
  rfl

@[simp] lemma linesAfter_return_newline : linesAfter line isOpen ('\r' :: '\n' :: text) =
    line.reverse :: linesAfter [] false text := by
  rw [linesAfter.eq_def]
  rfl

lemma linesAfter_cons {c : Char} (hpair : c = '\r' → ∀ rest, text ≠ '\n' :: rest) :
    linesAfter line isOpen (c :: text) = if isLineBoundary c then
      line.reverse :: linesAfter [] false text else linesAfter (c :: line) true text := by
  rw [linesAfter.eq_def]
  split
  · contradiction
  · next heq =>
    obtain ⟨rfl, rfl⟩ := List.cons.inj heq
    exact absurd rfl (hpair rfl _)
  · next heq =>
    obtain ⟨rfl, rfl⟩ := List.cons.inj heq
    rfl

@[simp] lemma linesAfter_newline : linesAfter line isOpen ('\n' :: text) =
    line.reverse :: linesAfter [] false text := by
  rw [linesAfter_cons (by simp), if_pos isLineBoundary_newline]

lemma linesAfter_boundary {c : Char} (hc : isLineBoundary c = true)
    (hpair : c = '\r' → ∀ rest, text ≠ '\n' :: rest) :
    linesAfter line isOpen (c :: text) = line.reverse :: linesAfter [] false text := by
  rw [linesAfter_cons hpair, if_pos hc]

lemma linesAfter_other {c : Char} (hc : isLineBoundary c = false) :
    linesAfter line isOpen (c :: text) = linesAfter (c :: line) true text := by
  rw [linesAfter_cons, if_neg (by simp [hc])]
  rintro rfl
  cases hc

/-- A carriage return before a text does not belong to a line feed behind it. -/
lemma append_newline_ne {c : Char} (htext : c = '\r' → ∀ rest, text ≠ '\n' :: rest)
    (hreturn : ¬(c = '\r' ∧ text = [])) (tail : List Char) :
    c = '\r' → ∀ rest, text ++ '\n' :: tail ≠ '\n' :: rest := by
  rintro rfl rest heq
  cases text with
  | nil => exact hreturn ⟨rfl, rfl⟩
  | cons d text =>
    obtain ⟨rfl, -⟩ := List.cons.inj heq
    exact htext rfl text rfl

/-- A line feed ends a line for display, with or without a carriage return before it. -/
lemma linesAfter_append_newline (line : List Char) (isOpen : Bool) (text rest : List Char) :
    linesAfter line isOpen (text ++ '\n' :: rest) =
      linesAfter line isOpen (text ++ ['\n']) ++ linesAfter [] false rest := by
  fun_induction linesAfter line isOpen text with
  | case1 | case2 => simp
  | case3 line isOpen text ih => simp [ih]
  | case4 line isOpen c text hpair hc ih =>
    by_cases hreturn : c = '\r' ∧ text = []
    · obtain ⟨rfl, rfl⟩ := hreturn
      simp
    · have hcut := append_newline_ne (fun heq rest => hpair rest heq) hreturn
      rw [List.cons_append, List.cons_append, linesAfter_boundary hc (hcut rest),
        linesAfter_boundary hc (hcut []), ih, List.cons_append]
  | case5 line isOpen c text hpair hc ih =>
    rw [Bool.not_eq_true] at hc
    rw [List.cons_append, List.cons_append, linesAfter_other hc, linesAfter_other hc, ih]

/-- The first line for display goes up to the first boundary. -/
lemma head?_linesAfter (line : List Char) (isOpen : Bool) (h : isOpen = true ∨ text ≠ []) :
    (linesAfter line isOpen text).head? = some (line.reverse ++ upToBoundary text) := by
  fun_induction linesAfter line isOpen text with
  | case1 => simp [upToBoundary]
  | case2 line isOpen hclosed => exact absurd h (by simp [hclosed])
  | case3 line isOpen text ih => simp [upToBoundary]
  | case4 line isOpen c text hpair hc ih => simp [upToBoundary, hc]
  | case5 line isOpen c text hpair hc ih => simp [ih, upToBoundary, hc]

/-- A line with its line feed is at least one line for display, and just one if it is plain. -/
lemma length_linesAfter (line : List Char) (isOpen : Bool) (h : '\n' ∉ text) :
    1 ≤ (linesAfter line isOpen (text ++ ['\n'])).length ∧
      ((linesAfter line isOpen (text ++ ['\n'])).length = 1 ↔ IsPlain text) := by
  induction text generalizing line isOpen with
  | nil => simp [isPlain_nil]
  | cons c text ih =>
    obtain ⟨-, htext⟩ : '\n' ≠ c ∧ '\n' ∉ text := by simpa using h
    cases hc : isLineBoundary c with
    | false =>
      rw [List.cons_append, linesAfter_other hc, isPlain_cons hc]
      exact ih (c :: line) true htext
    | true =>
      rw [isPlain_cons_of_boundary hc]
      by_cases hreturn : c = '\r' ∧ text = []
      · obtain ⟨rfl, rfl⟩ := hreturn
        simp
      · have hstart : c = '\r' → ∀ rest, text ≠ '\n' :: rest := by
          rintro - rest rfl
          exact htext List.mem_cons_self
        have hcut := append_newline_ne hstart hreturn []
        have hpos := (ih [] false htext).1
        rw [List.cons_append, linesAfter_boundary hc hcut, List.length_cons]
        exact ⟨by omega, iff_of_false (by omega) hreturn⟩

/-! ### Lines before a line -/

/-- Lines, each with its line feed. -/
def ended (lines : List (List Char)) : List Char := lines.flatMap (· ++ ['\n'])

@[simp] lemma ended_nil : ended [] = [] := rfl

@[simp] lemma ended_cons : ended (line :: lines) = line ++ '\n' :: ended lines := by
  simp [ended]

lemma linesAfter_ended_append (lines : List (List Char)) (rest : List Char) :
    linesAfter [] false (ended lines ++ rest) =
      linesAfter [] false (ended lines) ++ linesAfter [] false rest := by
  induction lines with
  | nil => simp
  | cons line lines ih =>
    rw [ended_cons, List.append_assoc, List.cons_append, linesAfter_append_newline, ih,
      linesAfter_append_newline [] false line (ended lines), List.append_assoc]

lemma length_linesAfter_ended (h : ∀ l ∈ lines, '\n' ∉ l) :
    lines.length ≤ (linesAfter [] false (ended lines)).length ∧
      ((linesAfter [] false (ended lines)).length = lines.length ↔ ∀ l ∈ lines, IsPlain l) := by
  induction lines with
  | nil => simp
  | cons line lines ih =>
    obtain ⟨hline, hlines⟩ := List.forall_mem_cons.mp h
    obtain ⟨hpos, hone⟩ := length_linesAfter [] false hline
    obtain ⟨hle, heq⟩ := ih hlines
    rw [ended_cons, linesAfter_append_newline, List.length_append, List.length_cons,
      List.forall_mem_cons, ← hone, ← heq]
    omega

/-- Behind plain lines a line is shown up to its first boundary. -/
lemma getElem?_linesAfter_of_isPlain (h : ∀ l ∈ lines, '\n' ∉ l)
    (hplain : ∀ l ∈ lines, IsPlain l) (hrest : rest ≠ []) :
    (linesAfter [] false (ended lines ++ rest))[lines.length]? = some (upToBoundary rest) := by
  have hlength := (length_linesAfter_ended h).2.mpr hplain
  have hhead := head?_linesAfter [] false (Or.inr hrest)
  rw [linesAfter_ended_append, ← hlength, List.getElem?_append_right (Nat.le_refl _),
    Nat.sub_self, ← List.head?_eq_getElem?, hhead]
  rfl

/-- Behind a line that is not plain a line is shown that is above. -/
lemma getElem?_linesAfter_of_not_isPlain (h : ∀ l ∈ lines, '\n' ∉ l)
    (hplain : ¬∀ l ∈ lines, IsPlain l) (rest : List Char) :
    ∃ shown ∈ linesAfter [] false (ended lines),
      (linesAfter [] false (ended lines ++ rest))[lines.length]? = some shown := by
  obtain ⟨hle, heq⟩ := length_linesAfter_ended h
  have hlt : lines.length < (linesAfter [] false (ended lines)).length :=
    Nat.lt_of_le_of_ne hle fun hlength => hplain (heq.mp hlength.symm)
  refine ⟨_, List.getElem_mem hlt, ?_⟩
  rw [linesAfter_ended_append, List.getElem?_append_left hlt, List.getElem?_eq_getElem hlt]

/-! ### The line of a position -/

/-- What stands before a position are lines and the beginning of another one. -/
lemma exists_eq_ended_append (before : List Char) : ∃ lines front,
    before = ended lines ++ front ∧ (∀ l ∈ lines, '\n' ∉ l) ∧ '\n' ∉ front ∧
      lines.length = before.count '\n' ∧
      front.length = (before.reverse.takeWhile (· ≠ '\n')).length := by
  induction before using List.reverseRecOn with
  | nil => exact ⟨[], [], by simp⟩
  | append_singleton before c ih =>
    obtain ⟨lines, front, hbefore, hlines, hfront, hcount, hlength⟩ := ih
    by_cases hc : c = '\n'
    · refine ⟨lines ++ [front], [], ?_, ?_, by simp, by simp [hc, hcount], by simp [hc]⟩
      · simp [hbefore, hc, ended]
      · simpa [or_imp, forall_and] using ⟨hlines, hfront⟩
    · refine ⟨lines, front ++ [c], by simp [hbefore], hlines, ?_, ?_, ?_⟩
      · simp [hfront, Ne.symm hc]
      · simp [hcount, hc]
      · simp [hc, hlength]

lemma splitOn_newline_of_not_mem (h : '\n' ∉ line) : line.splitOn '\n' = [line] :=
  List.splitOnP_eq_singleton fun c hc => by simpa using ne_of_mem_of_not_mem hc h

lemma splitOn_newline_append (line rest : List Char) :
    (line ++ '\n' :: rest).splitOn '\n' = line.splitOn '\n' ++ rest.splitOn '\n' :=
  List.splitOnP_append_cons line rest (by simp)

lemma splitOn_ended_append (h : ∀ l ∈ lines, '\n' ∉ l) (rest : List Char) :
    (ended lines ++ rest).splitOn '\n' = lines ++ rest.splitOn '\n' := by
  induction lines with
  | nil => rfl
  | cons line lines ih =>
    obtain ⟨hline, hlines⟩ := List.forall_mem_cons.mp h
    rw [ended_cons, List.append_assoc, List.cons_append, splitOn_newline_append, ih hlines,
      splitOn_newline_of_not_mem hline, List.singleton_append, List.cons_append]

/-- A line that has begun goes on up to the next line feed, or to the end. -/
lemma exists_splitOn_append {front : List Char} (hfront : '\n' ∉ front) (rest : List Char) :
    ∃ back later, (front ++ rest).splitOn '\n' = (front ++ back) :: later ∧
      upToBoundary (front ++ rest) = upToBoundary (front ++ back) := by
  by_cases h : '\n' ∈ rest
  · obtain ⟨back, rest, rfl, hback⟩ := List.eq_append_cons_of_mem h
    have hline : '\n' ∉ front ++ back := by simp [hfront, hback]
    refine ⟨back, rest.splitOn '\n', ?_, ?_⟩
    · rw [← List.append_assoc, splitOn_newline_append, splitOn_newline_of_not_mem hline,
        List.singleton_append]
    · rw [← List.append_assoc, upToBoundary_append_boundary isLineBoundary_newline]
  · have hline : '\n' ∉ front ++ rest := by simp [hfront, h]
    exact ⟨rest, [], splitOn_newline_of_not_mem hline, rfl⟩

/-- Where a text goes on behind a position, a line is shown that has the number of the line of this
position. It is this line up to its first boundary if all lines before are plain, and stands further
up otherwise. -/
theorem exists_line_shown (before : List Char) (hrest : rest ≠ []) : ∃ lines line later shown,
    (before ++ rest).splitOn '\n' = lines ++ line :: later ∧
      lines.length = before.count '\n' ∧
      (before.reverse.takeWhile (· ≠ '\n')).length ≤ line.length ∧
      (linesAfter [] false (before ++ rest))[lines.length]? = some shown ∧
      ((∀ l ∈ lines, IsPlain l) → shown = upToBoundary line) ∧
      ((¬∀ l ∈ lines, IsPlain l) → shown ∈ linesAfter [] false (ended lines)) := by
  obtain ⟨lines, front, rfl, hlines, hfront, hcount, hlength⟩ := exists_eq_ended_append before
  obtain ⟨back, later, hsplit, hup⟩ := exists_splitOn_append hfront rest
  have hne : front ++ rest ≠ [] := by simp [hrest]
  rw [← hlength, List.append_assoc, splitOn_ended_append hlines, hsplit]
  by_cases hplain : ∀ l ∈ lines, IsPlain l
  · have hshown := getElem?_linesAfter_of_isPlain hlines hplain hne
    exact ⟨lines, front ++ back, later, _, rfl, hcount, by simp, hshown, fun _ => hup,
      fun hnot => absurd hplain hnot⟩
  · obtain ⟨shown, hmem, hshown⟩ := getElem?_linesAfter_of_not_isPlain hlines hplain (front ++ rest)
    exact ⟨lines, front ++ back, later, shown, rfl, hcount, by simp, hshown,
      fun h => absurd h hplain, fun _ => hmem⟩

end Text

end LineScript
