import LineScript.Text.CodeRanges

/-!
# Blank characters

Three sets of blanks are in use: what separates the tokens of a script, what may surround a
number that is read from a setting, and what is trimmed from a setting before it is compared.
-/

namespace LineScript.Text

/-- Blanks between tokens: a space, a tab or a carriage return. A line feed is a token. -/
def isLayout (c : Char) : Bool :=
  c = ' ' || c = '\t' || c = '\r'

/-- Space characters of Unicode, without the four information separators of ASCII. -/
def spaces : CodeRanges := [
  (0x9, 0xD), (0x20, 0x20), (0x85, 0x85), (0xA0, 0xA0), (0x1680, 0x1680), (0x2000, 0x200A),
  (0x2028, 0x2029), (0x202F, 0x202F), (0x205F, 0x205F), (0x3000, 0x3000)]

/-- A blank that may stand before or after a number. -/
def isSpace (c : Char) : Bool :=
  spaces.contains c.toNat

/-- A blank that trimming removes: a space or one of the information separators. -/
def isTrimmed (c : Char) : Bool :=
  isSpace c || (0x1C ≤ c.toNat && c.toNat ≤ 0x1F)

/-- The text without the characters of a class at its two ends. -/
def trimmed (drop : Char → Bool) (text : List Char) : List Char :=
  ((text.dropWhile drop).reverse.dropWhile drop).reverse

end LineScript.Text
