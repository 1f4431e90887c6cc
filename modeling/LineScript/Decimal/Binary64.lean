/-!
# Floating point numbers

A number of the binary format with 64 bits is a significand of at most 53 binary digits times a
power of two, an infinity, or not a number. A fraction is rounded to the nearest number of the
format, and half way between two of them to the one with the even significand; all arithmetic is
on natural numbers and exact.

Finite numbers are in normal form: the exponent is at least `Binary64.leastExponent`, and the
significand has 53 digits unless the exponent is the least one. Two of them are therefore equal
only when they are the same.
-/

namespace LineScript

/-- A number of the 64 bit binary format. -/
inductive Binary64 where
  | nan
  | infinite (negative : Bool)
  /-- The value is `significand * 2 ^ exponent`, below zero if `negative`. -/
  | finite (negative : Bool) (significand : Nat) (exponent : Int)
deriving DecidableEq, Inhabited

namespace Binary64

/-- The exponent of the numbers next to zero. -/
def leastExponent : Int := -1074

/-- The exponent of the largest numbers. -/
def greatestExponent : Int := 971

/-- The least significand of 53 binary digits. -/
def leadingUnit : Nat := Nat.pow 2 52

/-- The quotient rounded to a natural number; a half goes to the even neighbour. -/
def roundDiv (num den : Nat) : Nat :=
  let quotient := num / den
  let rest := num % den
  if 2 * rest < den then quotient
  else if den < 2 * rest then quotient + 1
  else quotient + quotient % 2

/-- The fraction `num / den * base ^ (-exponent)` as numerator and denominator. -/
def rescale (base : Nat) (exponent : Int) (num den : Nat) : Nat × Nat :=
  if 0 ≤ exponent then (num, den * Nat.pow base exponent.toNat)
  else (num * Nat.pow base (-exponent).toNat, den)

/-- The exponent at which a fraction has a significand of 53 digits, or the least one. -/
def exponentOf (num den : Nat) : Int :=
  let guess : Int := (Nat.log2 num : Int) - Nat.log2 den - 52
  let (n, d) := rescale 2 guess num den
  max leastExponent (if n < d * leadingUnit then guess - 1 else guess)

/-- The number nearest to `num / den`. -/
def ofFraction (negative : Bool) (num den : Nat) : Binary64 :=
  if num = 0 then .finite negative 0 leastExponent
  else
    let exponent := exponentOf num den
    let (n, d) := rescale 2 exponent num den
    let significand := roundDiv n d
    let (significand, exponent) :=
      if significand = 2 * leadingUnit then (leadingUnit, exponent + 1) else (significand, exponent)
    if greatestExponent < exponent then .infinite negative
    else .finite negative significand exponent

/-- The number nearest to `digits * 10 ^ scale`. Scales out of all proportion are told by the
number of binary digits, before a power of ten is computed. -/
def ofDecimal (negative : Bool) (digits : Nat) (scale : Int) : Binary64 :=
  if digits = 0 then .finite negative 0 leastExponent
  else if 400 < scale then .infinite negative
  else if scale + Nat.log2 digits < -400 then .finite negative 0 leastExponent
  else
    let (num, den) := rescale 10 (-scale) digits 1
    ofFraction negative num den

/-- The magnitude of a finite number as numerator and denominator. -/
def magnitude (significand : Nat) (exponent : Int) : Nat × Nat :=
  rescale 2 (-exponent) significand 1

/-- Equality of numbers: zero has two signs, and not-a-number differs from itself. -/
def same : Binary64 → Binary64 → Bool
  | .finite s m e, .finite s' m' e' => (m == 0 && m' == 0) || (s == s' && m == m' && e == e')
  | .infinite s, .infinite s' => s == s'
  | _, _ => false

/-- Equality with an integer, without rounding either of them. -/
def sameInt (x : Binary64) (n : Int) : Bool :=
  match x with
  | .finite negative significand exponent =>
    let (num, den) := magnitude significand exponent
    (if negative then -(num : Int) else num) == n * den
  | _ => false

end Binary64

end LineScript
