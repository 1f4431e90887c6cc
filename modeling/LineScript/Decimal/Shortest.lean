import LineScript.Decimal.Binary64

/-!
# The shortest decimal of a floating point number

A finite number is written with the fewest decimal digits that read back as the same number, and
with the nearest of those. A grid of decimals `c * 10 ^ scale` has a point that reads back only if
one of the number's two neighbours on it does, so grids are tried from a coarse one on. Where both
neighbours read back and are equally near, the even one is taken.

`Binary64.text` then lays the digits out: positional when the leading digit stands for a power of
ten in the range that `Layout` gives, with an exponent otherwise.
-/

namespace LineScript

/-- How decimal digits are laid out. -/
structure Layout where
  /-- The least and the greatest power of ten of the leading digit that positional text shows. -/
  least : Int
  greatest : Int
  /-- The least number of digits of an exponent. -/
  exponentDigits : Nat

namespace Binary64

/-- Numbers are positional from a ten-thousandth to below ten to the sixteenth. -/
def layout : Layout := ⟨-4, 15, 2⟩

/-- The neighbour of a number on the grid of multiples of `10 ^ scale` that reads back. -/
def onGrid? (significand : Nat) (exponent scale : Int) : Option Nat :=
  let (num, den) := magnitude significand exponent
  let (num, den) := rescale 10 scale num den
  let below := num / den
  let readsBack (c : Nat) : Bool := ofDecimal false c scale == .finite false significand exponent
  match readsBack below, readsBack (below + 1) with
  | true, true => some (roundDiv num den)
  | true, false => some below
  | false, true => some (below + 1)
  | false, false => none

/-- A scale at which every number of this size is less than one step of the grid. -/
def coarseScale (significand : Nat) (exponent : Int) : Int :=
  Int.fdiv ((exponent + Nat.log2 significand + 1) * 30103) 100000 + 1

/-- The fewest digits that read back, with their scale. Seventeen digits always read back, so
the search ends on one of the grids that are tried. -/
def shortest (significand : Nat) (exponent : Int) : Nat × Int :=
  let top := coarseScale significand exponent
  let found := (List.range 24).findSome? fun (step : Nat) =>
    (onGrid? significand exponent (top - step)).map fun c => (c, top - step)
  found.getD (0, 0)

/-- Zeros. -/
def zeros (n : Nat) : String :=
  String.ofList (List.replicate n '0')

/-- Digits with a point after the first `count` of them, filled up with zeros on either side. -/
def positional (digits : String) (count : Int) : String :=
  let size : Int := digits.length
  if count ≤ 0 then "0." ++ zeros (-count).toNat ++ digits
  else if size ≤ count then digits ++ zeros (count - size).toNat ++ ".0"
  else
    let chars := digits.toList
    String.ofList (chars.take count.toNat) ++ "." ++ String.ofList (chars.drop count.toNat)

/-- Digits with a point after the first one, if there are more, and a power of ten. -/
def withExponent (l : Layout) (digits : String) (power : Int) : String :=
  let lead := String.ofList (digits.toList.take 1)
  let tail := String.ofList (digits.toList.drop 1)
  let point := if tail.isEmpty then "" else "."
  let size := toString power.natAbs
  let sign := if power < 0 then "-" else "+"
  lead ++ point ++ tail ++ "e" ++ sign ++ zeros (l.exponentDigits - size.length) ++ size

/-- Decimal digits with their scale, laid out. -/
def Layout.write (l : Layout) (digits : Nat) (scale : Int) : String :=
  let shown := toString digits
  let power := scale + shown.length - 1
  if l.least ≤ power && power ≤ l.greatest then positional shown (power + 1)
  else withExponent l shown power

/-- The text of a number. -/
def text : Binary64 → String
  | .nan => "nan"
  | .infinite negative => if negative then "-inf" else "inf"
  | .finite negative significand exponent =>
    let sign := if negative then "-" else ""
    if significand = 0 then sign ++ "0.0"
    else
      let (digits, scale) := shortest significand exponent
      sign ++ Layout.write layout digits scale

end Binary64

end LineScript
