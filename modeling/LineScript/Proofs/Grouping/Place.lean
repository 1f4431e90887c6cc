import LineScript.Grouping
import LineScript.Proofs.Trace

/-!
# One token in its place

A token opens a group, closes one, separates argument lists, ends a line, is a sibling by itself or
is refused. Which of these it does is a matter of its kind alone, and there is one equation of
`Source.place` for each.
-/

namespace LineScript

namespace Grouping

open Traced

/-! ### What kinds of tokens do -/

def isOpener (kind : TokenKind) : Bool := (opens? kind).isSome

def isCloser (kind : TokenKind) : Bool :=
  kind = .rightParen || kind = .rightBracket || kind = .rightBrace

/-- Such a token is a sibling by itself. -/
def isAtom (kind : TokenKind) : Bool :=
  kind ∈ [TokenKind.number, .string, .variable, .word, .trueWord, .falseWord, .nullWord, .symbol]

lemma kind_cases (kind : TokenKind) :
    kind = .newline ∨ kind = .comma ∨ kind = .colon ∨ kind = .eof ∨ isCloser kind = true ∨
      (∃ closer name, opens? kind = some (closer, name)) ∨ isAtom kind = true := by
  cases kind <;> simp [isCloser, isAtom, opens?]

variable {s : Source} {p q : Progress} {t : Token} {kind closer : TokenKind} {name : String}

lemma isOpener_eq_false_iff : isOpener kind = false ↔ opens? kind = none := by
  simp [isOpener]

lemma isOpener_eq_false_of_isCloser (h : isCloser kind = true) : isOpener kind = false := by
  simp only [isCloser, Bool.or_eq_true, decide_eq_true_eq] at h
  rcases h with (h | h) | h <;> rw [h] <;> rfl

lemma isCloser_of_opens (h : opens? kind = some (closer, name)) : isCloser closer = true := by
  unfold opens? at h
  split at h <;> simp at h <;> obtain ⟨rfl, -⟩ := h <;> rfl

lemma isCloser_eq_false_of_opens (h : opens? kind = some (closer, name)) :
    isCloser kind = false := by
  unfold opens? at h
  split at h <;> simp at h <;> rfl

lemma isAtom_of_canLabel (h : canLabel kind = true) : isAtom kind = true := by
  simp only [canLabel, Bool.or_eq_true, decide_eq_true_eq] at h
  rcases h with (h | h) | h <;> rw [h] <;> rfl

lemma isOpener_eq_false_of_isAtom (h : isAtom kind = true) : isOpener kind = false := by
  cases kind <;> first | rfl | cases h

lemma isCloser_eq_false_of_isAtom (h : isAtom kind = true) : isCloser kind = false := by
  cases kind <;> first | rfl | cases h

lemma isAtom_eq_false_of_isCloser (h : isCloser kind = true) : isAtom kind = false := by
  cases kind <;> first | rfl | cases h

lemma ne_of_isAtom (h : isAtom kind = true) : kind ≠ .comma ∧ kind ≠ .colon := by
  constructor <;> rintro rfl <;> cases h

/-! ### Equations -/

namespace Source

lemma place_of_newline (h : t.kind = .newline) :
    s.place p t = .ok (if p.groups.isEmpty then p.endRegion else p.touch t.place) := by
  simp [place, h]

/-- What comes of a token that some progress only allows. -/
def orUnexpected (s : Source) (t : Token) : Option Progress → Except Failure Progress
  | some q => .ok q
  | none => s.unexpected t

lemma place_of_comma (h : t.kind = .comma) :
    s.place p t = s.orUnexpected t (p.separate? t) := by
  simp only [place, h]
  cases p.separate? t <;> rfl

lemma place_of_isCloser (h : isCloser t.kind = true) :
    s.place p t = s.orUnexpected t (p.close? t) := by
  simp only [isCloser, Bool.or_eq_true, decide_eq_true_eq] at h
  rcases h with (h | h) | h <;> simp only [place, h] <;> cases p.close? t <;> rfl

lemma place_of_opens (h : opens? t.kind = some (closer, name)) :
    s.place p t = .ok (p.openGroup t name closer) := by
  unfold place
  split <;> simp_all [opens?]

lemma place_of_isAtom (h : isAtom t.kind = true) :
    s.place p t = .ok (p.push (atom s.registry p.siblings t)) := by
  unfold place
  cases hkind : t.kind <;> simp_all [isAtom, opens?]

lemma place_of_refused (h : t.kind = .colon ∨ t.kind = .eof) : s.place p t = s.unexpected t := by
  rcases h with h | h <;> simp [place, h]

lemma unexpected_ne_ok : (s.unexpected t : Except Failure Progress) ≠ .ok q := by
  intro h
  obtain ⟨text, -, h⟩ := bind_eq_ok_iff.mp h
  cases h

lemma unexpected_eq (ht : t.value.isTooLarge = false) :
    (s.unexpected t : Except Failure Progress) =
      s.complain (.unexpectedToken t.value.plain) t.place := by
  simp only [unexpected, plain, Value.plain?, ht, Bool.false_eq_true, if_false]
  rfl

lemma orUnexpected_eq_ok_iff {r : Option Progress} :
    s.orUnexpected t r = .ok q ↔ r = some q := by
  cases r with
  | none => simp [orUnexpected, unexpected_ne_ok]
  | some q' => simp [orUnexpected]

/-- All that putting a token in its place can be. -/
lemma place_cases (h : s.place p t = .ok q) :
    (t.kind = .newline ∧ q = if p.groups.isEmpty then p.endRegion else p.touch t.place) ∨
    (t.kind = .comma ∧ p.separate? t = some q) ∨
    (isCloser t.kind = true ∧ p.close? t = some q) ∨
    (∃ closer name, opens? t.kind = some (closer, name) ∧ q = p.openGroup t name closer) ∨
    (isAtom t.kind = true ∧ q = p.push (atom s.registry p.siblings t)) := by
  rcases kind_cases t.kind with hkind | hkind | hkind | hkind | hkind | ⟨closer, name, hkind⟩ |
    hkind
  · rw [place_of_newline hkind] at h
    exact Or.inl ⟨hkind, (Except.ok.inj h).symm⟩
  · rw [place_of_comma hkind] at h
    exact Or.inr (Or.inl ⟨hkind, orUnexpected_eq_ok_iff.mp h⟩)
  · rw [place_of_refused (Or.inl hkind)] at h
    exact absurd h unexpected_ne_ok
  · rw [place_of_refused (Or.inr hkind)] at h
    exact absurd h unexpected_ne_ok
  · rw [place_of_isCloser hkind] at h
    exact Or.inr (Or.inr (Or.inl ⟨hkind, orUnexpected_eq_ok_iff.mp h⟩))
  · rw [place_of_opens hkind] at h
    exact Or.inr (Or.inr (Or.inr (Or.inl ⟨closer, name, hkind, (Except.ok.inj h).symm⟩)))
  · rw [place_of_isAtom hkind] at h
    exact Or.inr (Or.inr (Or.inr (Or.inr ⟨hkind, (Except.ok.inj h).symm⟩)))

lemma place_eq_ok_iff : s.place p t = .ok q ↔
    (t.kind = .newline ∧ q = if p.groups.isEmpty then p.endRegion else p.touch t.place) ∨
    (t.kind = .comma ∧ p.separate? t = some q) ∨
    (isCloser t.kind = true ∧ p.close? t = some q) ∨
    (∃ closer name, opens? t.kind = some (closer, name) ∧ q = p.openGroup t name closer) ∨
    (isAtom t.kind = true ∧ q = p.push (atom s.registry p.siblings t)) := by
  refine ⟨place_cases, ?_⟩
  rintro (⟨hkind, rfl⟩ | ⟨hkind, hq⟩ | ⟨hkind, hq⟩ | ⟨closer, name, hkind, rfl⟩ | ⟨hkind, rfl⟩)
  · exact place_of_newline hkind
  · rw [place_of_comma hkind, hq, orUnexpected]
  · rw [place_of_isCloser hkind, hq, orUnexpected]
  · exact place_of_opens hkind
  · exact place_of_isAtom hkind

end Source

end Grouping

end LineScript
