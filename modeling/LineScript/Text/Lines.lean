/-!
# Lines of a text

A source is cut into lines for display wherever it has a line boundary: a line feed, a carriage
return (with the line feed after it), a vertical tab, a form feed, one of three information
separators, the next-line control, or a line or paragraph separator. The boundary belongs to no
line, and a text that ends in one has no empty line after it.
-/

namespace LineScript.Text

/-- A character that ends a line when a source is cut for display. -/
def isLineBoundary (c : Char) : Bool :=
  c = '\n' || c = '\r' || c = '\x0b' || c = '\x0c' || c = '\x1c' || c = '\x1d' || c = '\x1e' ||
    c = '\u0085' || c = '\u2028' || c = '\u2029'

/-- The lines of `text`, when `line` holds the characters of the first one read before, the last
of them first, and `isOpen` says that this line is there even without further characters. -/
def linesAfter (line : List Char) (isOpen : Bool) : List Char → List (List Char)
  | [] => if isOpen then [line.reverse] else []
  | '\r' :: '\n' :: text => line.reverse :: linesAfter [] false text
  | c :: text =>
    if isLineBoundary c then line.reverse :: linesAfter [] false text
    else linesAfter (c :: line) true text

/-- The lines of a text, without their boundaries. -/
def lines (text : String) : List String :=
  (linesAfter [] false text.toList).map String.ofList

/-- A line, counted from one. -/
def line? (lines : List String) (number : Int) : Option String :=
  if 0 < number then lines[number.toNat - 1]? else none

/-- The text between the line feeds around a place: all characters up to the next one. -/
def untilNewline (text : List Char) : List Char :=
  text.takeWhile (· ≠ '\n')

/-- The text with every line end of a file, `\r\n` or `\r`, written as a line feed. -/
def unifyNewlines : List Char → List Char
  | [] => []
  | '\r' :: '\n' :: text => '\n' :: unifyNewlines text
  | c :: text => (if c = '\r' then '\n' else c) :: unifyNewlines text

end LineScript.Text
