/-!
# Reading UTF-8

The octets of a text are read one at a time. A reader between characters takes any first octet
of a character; inside one it knows how many octets are still owed and which values the next one
may have, which leaves out overlong forms, surrogates and numbers beyond the last code point.
Where reading has to stop, the fault names the octets of the character that could not be read.
-/

namespace LineScript.Text.Utf8

/-- Why octets are not UTF-8, and which of them: from `start` up to `stop`, that one excluded. -/
structure Fault where
  start : Int
  stop : Int
  /-- The octet at `start`. -/
  octet : Option UInt8
  reason : String
deriving DecidableEq

/-- A description of the fault, which shows the octet when there is only one. -/
def Fault.message (fault : Fault) : String :=
  let start := fault.start
  let last := fault.stop - 1
  let reason := fault.reason
  match if fault.stop = start + 1 then fault.octet else none with
  | some octet =>
    let digits := Nat.toDigits 16 octet.toNat
    let shown := String.ofList (List.replicate (2 - digits.length) '0' ++ digits)
    s!"'utf-8' codec can't decode byte 0x{shown} in position {start}: {reason}"
  | none => s!"'utf-8' codec can't decode bytes in position {start}-{last}: {reason}"

/-- A character of which the first octets have been read. -/
structure Pending where
  /-- Where its first octet stands. -/
  start : Nat
  first : UInt8
  /-- The code point so far. -/
  code : Nat
  /-- How many octets are owed. -/
  owed : Nat
  /-- The least and the greatest value of the next octet. -/
  low : Nat
  high : Nat

/-- What the first octet of a character says: its share of the code point, the octets owed and
the values of the next one. -/
def lead? (octet : Nat) : Option (Nat × Nat × Nat × Nat) :=
  if octet < 0x80 then some (octet, 0, 0x80, 0xBF)
  else if octet < 0xC2 then none
  else if octet < 0xE0 then some (octet - 0xC0, 1, 0x80, 0xBF)
  else if octet = 0xE0 then some (0, 2, 0xA0, 0xBF)
  else if octet = 0xED then some (0xD, 2, 0x80, 0x9F)
  else if octet < 0xF0 then some (octet - 0xE0, 2, 0x80, 0xBF)
  else if octet = 0xF0 then some (0, 3, 0x90, 0xBF)
  else if octet < 0xF4 then some (octet - 0xF0, 3, 0x80, 0xBF)
  else if octet = 0xF4 then some (4, 3, 0x80, 0x8F)
  else none

/-- Read octets, the first of which stands at `place`; `text` holds the characters read so far,
the last one first. -/
def readFrom (text : List Char) (place : Nat) :
    Option Pending → List UInt8 → Except Fault (List Char)
  | none, [] => .ok text.reverse
  | some p, [] => .error ⟨p.start, place, some p.first, "unexpected end of data"⟩
  | none, octet :: octets =>
    match lead? octet.toNat with
    | none => .error ⟨place, place + 1, some octet, "invalid start byte"⟩
    | some (code, 0, _, _) => readFrom (Char.ofNat code :: text) (place + 1) none octets
    | some (code, owed, low, high) =>
      readFrom text (place + 1) (some ⟨place, octet, code, owed, low, high⟩) octets
  | some p, octet :: octets =>
    if p.low ≤ octet.toNat && octet.toNat ≤ p.high then
      let code := p.code * 64 + (octet.toNat - 0x80)
      if p.owed ≤ 1 then readFrom (Char.ofNat code :: text) (place + 1) none octets
      else
        let rest := { p with code, owed := p.owed - 1, low := 0x80, high := 0xBF }
        readFrom text (place + 1) (some rest) octets
    else .error ⟨p.start, place, some p.first, "invalid continuation byte"⟩

/-- The text that octets stand for. -/
def read (octets : List UInt8) : Except Fault (List Char) :=
  readFrom [] 0 none octets

end LineScript.Text.Utf8
