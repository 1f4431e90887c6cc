import LineScript.Text.CaseTable

/-!
# Lower case

Every letter is replaced by its lower case. Two rules reach beyond one letter: the capital I with
a dot becomes an i and a combining dot, and a capital sigma takes its final form when a letter
comes before it and none after it, passing over the characters that a word may contain anywhere.
-/

namespace LineScript.Text

open CaseTable

/-- The lower case of a character, for all but the two that need more than one character. -/
def lowerChar (c : Char) : Char :=
  if c.toNat < 0x80 then
    if 'A' ≤ c && c ≤ 'Z' then Char.ofNat (c.toNat + 32) else c
  else
    match shifts.find? fun (first, last, step, _) =>
        first ≤ c.toNat && c.toNat ≤ last && (c.toNat - first) % step = 0 with
    | some (_, _, _, shift) => Char.ofNat (c.toNat + shift).toNat
    | none => c

/-- The character is passed over when the end of a word is looked for. -/
def isPassedOver (c : Char) : Bool :=
  passedOver.contains c.toNat || passedOverAbove.contains c.toNat

/-- The first character that is not passed over is a letter. -/
def leadsWithLetter (text : List Char) : Bool :=
  match text.dropWhile isPassedOver with
  | [] => false
  | c :: _ => cased.contains c.toNat

/-- Lower case of a text that follows the characters `before`, the last of them first. -/
def lowerAfter (before : List Char) : List Char → List Char
  | [] => []
  | c :: text =>
    let lower :=
      if c = 'İ' then ['i', '\u0307']
      else if c = 'Σ' && leadsWithLetter before && !leadsWithLetter text then ['ς']
      else [lowerChar c]
    lower ++ lowerAfter (c :: before) text

/-- The text in lower case. -/
def lower (text : List Char) : List Char :=
  lowerAfter [] text

end LineScript.Text
