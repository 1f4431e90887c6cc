/-!
# Control sequences of a terminal

A terminal takes an escape character, a left bracket, a number of digits, semicolons and question
marks, and a letter as a command about colours or its cursor. `withoutControls` leaves these
sequences out of a text, for output that no terminal shows. A sequence that is not complete is
text like any other, and so is one that comes about where another was left out.
-/

namespace LineScript.Text

/-- A character between the bracket and the letter of a control sequence. -/
def isParameter (c : Char) : Bool :=
  c.isDigit || c = ';' || c = '?'

/-- The number of characters of the control sequence that a text begins with, or zero. -/
def controlSize : List Char → Nat
  | '\x1b' :: '[' :: text =>
    match text.dropWhile isParameter with
    | c :: _ => if c.isAlpha then (text.takeWhile isParameter).length + 3 else 0
    | [] => 0
  | _ => 0

/-- A text without its first `skip` characters and without the control sequences behind them. -/
def skipControls : Nat → List Char → List Char
  | _, [] => []
  | skip + 1, _ :: text => skipControls skip text
  | 0, c :: text =>
    match controlSize (c :: text) with
    | 0 => c :: skipControls 0 text
    | size + 1 => skipControls size text

/-- A text without control sequences. -/
def withoutControls (text : String) : String :=
  String.ofList (skipControls 0 text.toList)

theorem controlSize_eq_zero_of_ne {c : Char} (h : c ≠ '\x1b') (text : List Char) :
    controlSize (c :: text) = 0 := by
  unfold controlSize
  split <;> simp_all

theorem skipControls_of_not_mem {text : List Char} (h : '\x1b' ∉ text) :
    skipControls 0 text = text := by
  induction text with
  | nil => rfl
  | cons c text ih =>
    rw [List.mem_cons, not_or] at h
    rw [skipControls, controlSize_eq_zero_of_ne (Ne.symm h.1)]
    exact congrArg (c :: ·) (ih h.2)

/-- A text without an escape character is shown as it is. -/
theorem withoutControls_of_not_mem {text : String} (h : '\x1b' ∉ text.toList) :
    withoutControls text = text := by
  rw [withoutControls, skipControls_of_not_mem h, String.ofList_toList]

end LineScript.Text
