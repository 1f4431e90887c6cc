import LineScript.Failure
import LineScript.Value

/-!
# Tokens
-/

namespace LineScript

/-- The kinds of tokens. -/
inductive TokenKind where
  | eof
  | newline
  | number
  | string
  | variable
  | word
  | trueWord
  | falseWord
  | nullWord
  | symbol
  | leftParen
  | rightParen
  | leftBracket
  | rightBracket
  | leftBrace
  | rightBrace
  | comma
  | colon
deriving DecidableEq, Inhabited

/-- The name of a kind where tokens are listed. -/
def TokenKind.name : TokenKind → String
  | .eof => "EOF"
  | .newline => "NEWLINE"
  | .number => "NUMBER"
  | .string => "STRING"
  | .variable => "VARIABLE"
  | .word => "WORD"
  | .trueWord => "TRUE"
  | .falseWord => "FALSE"
  | .nullWord => "NULL"
  | .symbol => "SYMBOL"
  | .leftParen => "LPAREN"
  | .rightParen => "RPAREN"
  | .leftBracket => "LBRACKET"
  | .rightBracket => "RBRACKET"
  | .leftBrace => "LBRACE"
  | .rightBrace => "RBRACE"
  | .comma => "COMMA"
  | .colon => "COLON"

/-- The kinds of tokens that are one character long and stand for themselves. -/
def TokenKind.ofDelimiter? : Char → Option TokenKind
  | '(' => some .leftParen
  | ')' => some .rightParen
  | '[' => some .leftBracket
  | ']' => some .rightBracket
  | '\x7b' => some .leftBrace
  | '\x7d' => some .rightBrace
  | ',' => some .comma
  | ':' => some .colon
  | _ => none

/-- The kind of a word. -/
def TokenKind.ofWord (word : String) : TokenKind :=
  if word = "true" then .trueWord
  else if word = "false" then .falseWord
  else if word = "null" then .nullWord
  else .word

/-- A token: its kind, the value it carries and the place it begins at. -/
structure Token where
  kind : TokenKind
  value : Value
  place : Location
deriving DecidableEq, Inhabited

namespace Token

/-- A token as it is listed: kind, value if there is one, line and column. -/
def listing (t : Token) : String :=
  let position := toString t.place.line ++ ":" ++ toString t.place.column
  let value :=
    match t.value with
    | .null => ""
    | .text s => Text.quoted s ++ ", "
    | v => v.plain ++ ", "
  "Token(" ++ t.kind.name ++ ", " ++ value ++ position ++ ")"

/-- The listing of a token, unless its value is an integer with too many digits. -/
def listing? (t : Token) : Except Failure String :=
  if t.value.isTooLarge then .error (.numeral .tooLarge) else .ok t.listing

/-- The name that a token carries. -/
def name (t : Token) : String := t.value.plain

end Token

end LineScript
