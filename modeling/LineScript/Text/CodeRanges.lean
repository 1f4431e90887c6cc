/-!
# Sets of characters as ranges of code points
-/

namespace LineScript.Text

/-- A set of characters, given by the first and the last code point of each of its ranges. -/
abbrev CodeRanges := List (Nat × Nat)

/-- The code point lies in one of the ranges. -/
def CodeRanges.contains (ranges : CodeRanges) (code : Nat) : Bool :=
  ranges.any fun range => range.1 ≤ code && code ≤ range.2

theorem CodeRanges.contains_iff (ranges : CodeRanges) (code : Nat) :
    ranges.contains code = true ↔ ∃ range ∈ ranges, range.1 ≤ code ∧ code ≤ range.2 := by
  simp [CodeRanges.contains]

end LineScript.Text
