import LineScript.Decimal.Binary64
import LineScript.Text.Blank
import LineScript.Text.Digit
import LineScript.Text.Quoted

/-!
# Numerals

Reading integers and floating point numbers, and writing integers. Decimal integers are limited
in length, both ways: a numeral of more than `Numeral.maxDigits` digits, zeros in front included,
is not read, and an integer of more digits is not written. A digit that has no decimal value makes
a numeral unreadable.
-/

namespace LineScript.Numeral

open Text

/-- The greatest number of digits of a decimal integer. -/
def maxDigits : Nat := 4300

/-- Why a numeral is not read or an integer not written. -/
inductive Fault where
  /-- A numeral with so many digits is not read. -/
  | tooLong (digits : Nat)
  /-- The integer has too many digits to be written. -/
  | tooLarge
  | notInteger (text : String)
  | notFloat (text : String)
deriving DecidableEq

/-- A description of the fault. The text of an integer is cut after its first 200 characters. -/
def Fault.message : Fault → String
  | .tooLong digits =>
    s!"Exceeds the limit ({maxDigits} digits) for integer string conversion: value has {digits} digits; "
      ++ "use sys.set_int_max_str_digits() to increase the limit"
  | .tooLarge =>
    s!"Exceeds the limit ({maxDigits} digits) for integer string conversion; "
      ++ "use sys.set_int_max_str_digits() to increase the limit"
  | .notInteger text =>
    "invalid literal for int() with base 10: " ++ String.ofList ((quotedChars text.toList).take 200)
  | .notFloat text => "could not convert string to float: " ++ quoted text

/-! ### Writing -/

/-- The least number that has too many digits. -/
def bound : Nat := Nat.pow 10 maxDigits

/-- The integer has too many digits to be written. -/
def isTooLarge (n : Int) : Bool :=
  bound ≤ n.natAbs

/-! ### Reading -/

/-- The values of decimal digits. -/
def digitValues (digits : List Char) : List Nat :=
  digits.filterMap digitValue?

/-- The natural number that a text of digits spells. -/
def readNatural (text : List Char) : Except Fault Nat :=
  let decimal := text.takeWhile fun c => (digitValue? c).isSome
  if maxDigits < decimal.length then .error (.tooLong decimal.length)
  else if decimal.length = text.length then .ok (ofDigits 10 (digitValues decimal))
  else .error (.notInteger (String.ofList text))

/-- Every underscore stands between two decimal digits. -/
def underscoresSeparate (text : List Char) : Bool :=
  let isDecimal (c : Char) : Bool := (digitValue? c).isSome
  let rec go (afterDigit : Bool) : List Char → Bool
    | [] => true
    | '_' :: c :: rest => afterDigit && isDecimal c && go true rest
    | c :: rest => c ≠ '_' && go (isDecimal c) rest
  go false text

/-- The sign in front of a numeral, true for a minus, and what follows it. -/
def splitSign : List Char → Bool × List Char
  | '-' :: rest => (true, rest)
  | '+' :: rest => (false, rest)
  | rest => (false, rest)

/-- An integer as a setting gives it: blanks around it, a sign, and underscores between digits
are allowed. -/
def integer? (text : List Char) : Option Int :=
  let (negative, digits) := splitSign (trimmed isSpace text)
  let plain := digits.filter (· ≠ '_')
  if plain.isEmpty || !underscoresSeparate digits then none
  else
    match readNatural plain with
    | .ok n => some (if negative then -n else n)
    | .error _ => none

/-- Digits with an exponent behind them, if there is one. -/
def splitExponent (text : List Char) : Option (List Char × Int) :=
  let isMark (c : Char) : Bool := c = 'e' || c = 'E'
  let digits := text.takeWhile (!isMark ·)
  match text.dropWhile (!isMark ·) with
  | [] => some (digits, 0)
  | _ :: rest =>
    let (negative, exponent) := splitSign rest
    if exponent.isEmpty || !exponent.all fun c => (digitValue? c).isSome then none
    else
      let n := ofDigits 10 (digitValues exponent)
      some (digits, if negative then -n else n)

/-- A floating point number in any of its spellings: blanks around it, a sign, a name of infinity
or of not-a-number, or digits with an optional point, an optional exponent, and underscores between
digits. -/
def float? (text : List Char) : Option Binary64 := do
  let (negative, body) := splitSign (trimmed isSpace text)
  let name := String.ofList (body.map Char.toLower)
  if name = "inf" || name = "infinity" then return .infinite negative
  if name = "nan" then return .nan
  guard (underscoresSeparate body)
  let (digits, exponent) ← splitExponent (body.filter (· ≠ '_'))
  let whole := digits.takeWhile (· ≠ '.')
  let fraction := (digits.dropWhile (· ≠ '.')).drop 1
  let all := whole ++ fraction
  guard (!all.isEmpty && all.all fun c => (digitValue? c).isSome)
  return .ofDecimal negative (ofDigits 10 (digitValues all)) (exponent - fraction.length)

/-- The floating point number that a text spells. -/
def parseFloat (text : List Char) : Except Fault Binary64 :=
  match float? text with
  | some x => .ok x
  | none => .error (.notFloat (String.ofList text))

end LineScript.Numeral
