import LineScript.Diagnostic
import LineScript.Operator
import LineScript.Text.Blank
import LineScript.Token

/-!
# Lexemes

What a token looks like. `scan` reads the lexeme at the beginning of a text, `gap` finds where the
next one begins after blanks and comments. Both work on the characters alone; where the lexeme
stands is the matter of `LineScript.Token.Lexer`.

A lexeme is as long as it can be: a word, a number and a symbol end where the next character
cannot continue them. A string ends at its quote, and it may hold a line feed only behind a
backslash.
-/

namespace LineScript

open Text

/-- A token without its place, and the number of characters it is written with. -/
structure Lexeme where
  kind : TokenKind
  value : Value
  size : Nat
  size_pos : 0 < size

/-- Why no lexeme can be read. -/
inductive ScanFault where
  /-- The script is wrong; so many characters had been read when that showed. -/
  | badSyntax (fault : SyntaxFault) (read : Nat)
  | numeral (fault : Numeral.Fault)

namespace Lexeme

/-! ### Names -/

/-- A character that a name begins with. -/
def isNameStart (c : Char) : Bool :=
  ('a' ≤ c && c ≤ 'z') || ('A' ≤ c && c ≤ 'Z') || c = '_'

/-- A character that a name goes on with. -/
def isNameChar (c : Char) : Bool :=
  isNameStart c || ('0' ≤ c && c ≤ '9')

/-- The word that `c` begins. -/
def word (c : Char) (text : List Char) : Lexeme :=
  let tail := text.takeWhile isNameChar
  let name := String.ofList (c :: tail)
  ⟨.ofWord name, .text name, tail.length + 1, by omega⟩

/-- The variable behind an at sign. -/
def atVariable (text : List Char) : Option Lexeme :=
  let name := text.takeWhile isNameChar
  if text.head?.any isNameStart then
    some ⟨.variable, .text (String.ofList name), name.length + 1, by omega⟩
  else none

/-! ### Numbers -/

/-- A number with hexadecimal digits behind its mark, which has two characters. -/
def hexadecimal (text : List Char) : Except ScanFault Lexeme :=
  let digits := text.takeWhile fun c => (hexDigitValue? c).isSome
  if digits.isEmpty then .error (.badSyntax .missingHexDigits 2)
  else
    let n := ofDigits 16 (digits.filterMap hexDigitValue?)
    .ok ⟨.number, .int n, digits.length + 2, by omega⟩

/-- A number of digits, with a point if a digit follows it. -/
def decimal (text : List Char) (nonempty : 0 < (text.takeWhile isDigit).length) :
    Except ScanFault Lexeme :=
  let whole := text.takeWhile isDigit
  let fraction :=
    match text.dropWhile isDigit with
    | '.' :: rest => rest.takeWhile isDigit
    | _ => []
  if fraction.isEmpty then
    match Numeral.readNatural whole with
    | .ok n => .ok ⟨.number, .int n, whole.length, nonempty⟩
    | .error fault => .error (.numeral fault)
  else
    match Numeral.parseFloat (whole ++ '.' :: fraction) with
    | .ok x => .ok ⟨.number, .float x, whole.length + 1 + fraction.length, by omega⟩
    | .error fault => .error (.numeral fault)

/-- The text begins with the mark of a hexadecimal number. -/
def isHexMark : List Char → Bool
  | '0' :: c :: _ => c = 'x' || c = 'X'
  | _ => false

/-- The number that a digit `c` begins. -/
def number (c : Char) (text : List Char) (h : isDigit c = true) : Except ScanFault Lexeme :=
  if isHexMark (c :: text) then hexadecimal (text.drop 1)
  else decimal (c :: text) (by simp [h])

/-! ### Strings -/

/-- The character that a backslash and `c` stand for. -/
def unescape (c : Char) : Char :=
  if c = 'n' then '\n'
  else if c = 'r' then '\r'
  else if c = 't' then '\t'
  else if c = '0' then '\x00'
  else c

/-- The characters of a string up to its quote, and how many characters they and the quote are
written with. Without a quote the result is the number of characters before the line feed, or the
end of the text, that stands in its way. -/
def stringBody (quote : Char) : List Char → Except Nat (List Char × Nat)
  | [] => .error 0
  | c :: text =>
    if c = quote then .ok ([], 1)
    else if c = '\n' then .error 0
    else if c = '\\' then
      match text with
      | [] => .error 1
      | e :: text =>
        match stringBody quote text with
        | .ok (chars, size) => .ok (unescape e :: chars, size + 2)
        | .error read => .error (read + 2)
    else
      match stringBody quote text with
      | .ok (chars, size) => .ok (c :: chars, size + 1)
      | .error read => .error (read + 1)

/-- The string that a quote begins. -/
def string (quote : Char) (text : List Char) : Except ScanFault Lexeme :=
  match stringBody quote text with
  | .ok (chars, size) => .ok ⟨.string, .text (String.ofList chars), size + 1, by omega⟩
  | .error read => .error (.badSyntax (.unterminatedString quote) (read + 1))

/-! ### Symbols -/

/-- The longest operator that a text begins with. -/
def symbol? (text : List Char) : Option String :=
  Operator.spellings.find? fun spelling => spelling.toList.isPrefixOf text

theorem length_pos_of_symbol? {text : List Char} {spelling : String}
    (h : symbol? text = some spelling) : 0 < spelling.length := by
  have hmem := List.mem_of_find?_eq_some h
  rw [Operator.mem_spellings_iff] at hmem
  exact Operator.length_pos_of_isKnown hmem

/-! ### All of them -/

/-- The lexeme that `c` begins, the text behind it being `text`. -/
def scan (c : Char) (text : List Char) : Except ScanFault Lexeme :=
  if c = '\n' then .ok ⟨.newline, .null, 1, by omega⟩
  else if isNameStart c then .ok (word c text)
  else if h : isDigit c = true then number c text h
  else if c = '\'' || c = '"' then string c text
  else if c = '@' then
    match atVariable text with
    | some lexeme => .ok lexeme
    | none => .error (.badSyntax .missingVariableName 1)
  else
    match TokenKind.ofDelimiter? c with
    | some kind => .ok ⟨kind, .text (String.ofList [c]), 1, by omega⟩
    | none =>
      match h : symbol? (c :: text) with
      | some spelling =>
        .ok ⟨.symbol, .text spelling, spelling.length, length_pos_of_symbol? h⟩
      | none => .error (.badSyntax (.invalidCharacter c) 0)

/-! ### Gaps -/

/-- What the reader of a gap is in. -/
inductive GapState where
  | blanks
  /-- A comment that ends with its line. -/
  | lineComment
  /-- A comment that ends with its mark, and where it began. -/
  | blockComment (start : Nat)
deriving DecidableEq

/-- The end of a gap, `n` characters of which have been read. A block comment that does not end is
reported by where it began. -/
def gapFrom : GapState → Nat → List Char → Except Nat Nat
  | .blanks, n, [] => .ok n
  | .blanks, n, c :: text =>
    if isLayout c then gapFrom .blanks (n + 1) text
    else if c = '#' then gapFrom .lineComment (n + 1) text
    else if c = '/' then
      match text with
      | '/' :: text => gapFrom .lineComment (n + 2) text
      | '*' :: text => gapFrom (.blockComment n) (n + 2) text
      | _ => .ok n
    else .ok n
  | .lineComment, n, [] => .ok n
  | .lineComment, n, c :: text => if c = '\n' then .ok n else gapFrom .lineComment (n + 1) text
  | .blockComment start, _, [] => .error start
  | .blockComment start, n, c :: text =>
    if c = '*' then
      match text with
      | '/' :: text => gapFrom .blanks (n + 2) text
      | text => gapFrom (.blockComment start) (n + 1) text
    else gapFrom (.blockComment start) (n + 1) text

/-- The number of characters before the next lexeme. -/
def gap (text : List Char) : Except Nat Nat :=
  gapFrom .blanks 0 text

end Lexeme

end LineScript
