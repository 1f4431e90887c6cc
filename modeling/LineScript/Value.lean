import LineScript.Decimal.Numeral
import LineScript.Decimal.Shortest

/-!
# Constant values

The values that a script can spell: null, the truth values, texts, integers of any size and
floating point numbers.
-/

namespace LineScript

open Text

/-- A constant value. -/
inductive Value where
  | null
  | bool (b : Bool)
  | text (s : String)
  | int (n : Int)
  | float (x : Binary64)
deriving DecidableEq, Inhabited

namespace Value

/-- The integer has too many digits to be written. -/
def isTooLarge : Value → Bool
  | .int n => Numeral.isTooLarge n
  | _ => false

/-- A value as a script spells it, texts between quotes. -/
def render : Value → String
  | .null => "null"
  | .bool b => if b then "true" else "false"
  | .text s => quoted s
  | .int n => toString n
  | .float x => x.text

/-- A value within a message or as the name of a label, texts as they are. -/
def plain : Value → String
  | .null => "None"
  | .bool b => if b then "True" else "False"
  | .text s => s
  | .int n => toString n
  | .float x => x.text

/-- The plain text of a value, unless it is an integer with too many digits. -/
def plain? (v : Value) : Except Numeral.Fault String :=
  if v.isTooLarge then .error .tooLarge else .ok v.plain

/-- The truth values count as one and zero among the numbers. -/
def toInt? : Value → Option Int
  | .bool b => some (if b then 1 else 0)
  | .int n => some n
  | _ => none

/-- Equality of values. Numbers of any kind are compared by what they stand for. -/
def same : Value → Value → Bool
  | .null, .null => true
  | .text s, .text t => s == t
  | .float x, .float y => x.same y
  | .float x, v | v, .float x => v.toInt?.any x.sameInt
  | v, w =>
    match v.toInt?, w.toInt? with
    | some m, some n => m == n
    | _, _ => false

end Value

end LineScript
