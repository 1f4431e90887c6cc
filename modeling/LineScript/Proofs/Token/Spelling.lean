import LineScript.Proofs.Token.Reading
import Mathlib.Data.List.Forall2

/-!
# Texts that are read as one token

Which token a text is read as depends on what comes behind it. `IsReadAs` says it of a text in front
of a given rest, and a source that is put together from such texts and from blanks is read back text
by text (`Spelled.exists_tokens`).

No token goes on with a blank, a line feed or a delimiter. A spelling is a text that is read as one
token wherever a blank or the end of the source comes behind it. Spellings with single blanks
between them are read back one by one.
-/

namespace LineScript

open Text

/-- The text is at its end or goes on with a blank. -/
def AtBlank (rest : List Char) : Prop :=
  ∀ c ∈ rest.head?, c = ' '

/-- The characters that no token goes on with. -/
def breaks : List Char :=
  [' ', '\t', '\r', '\n', '(', ')', '[', ']', '\x7b', '\x7d', ',', ':']

/-- The text is at its end or goes on with a character that no token goes on with. -/
def AtBreak (rest : List Char) : Prop :=
  ∀ c ∈ rest.head?, c ∈ breaks

lemma AtBlank.atBreak {rest : List Char} (h : AtBlank rest) : AtBreak rest := by
  intro c hc
  rw [h c hc]
  decide

/-- What a token carries beside its place. -/
def Token.content (t : Token) : TokenKind × Value := (t.kind, t.value)

/-- In front of the rest the text is read as one token. -/
structure IsReadAs (text rest : List Char) (kind : TokenKind) (value : Value) : Prop where
  gapFrom_eq : ∀ n, Lexeme.gapFrom .blanks n (text ++ rest) = .ok n
  exists_scan : ∃ c cs lexeme, text ++ rest = c :: cs ∧ Lexeme.scan c cs = .ok lexeme ∧
    lexeme.kind = kind ∧ lexeme.value = value ∧ lexeme.size = text.length

/-- A text made of blanks and of texts that are each read as one token. -/
inductive Spelled : List Char → List (TokenKind × Value) → Prop where
  | nil : Spelled [] []
  | blank {rest : List Char} {xs : List (TokenKind × Value)} (h : Spelled rest xs) :
      Spelled (' ' :: rest) xs
  | token {text rest : List Char} {x : TokenKind × Value} {xs : List (TokenKind × Value)}
      (ht : IsReadAs text rest x.1 x.2) (h : Spelled rest xs) : Spelled (text ++ rest) (x :: xs)

lemma IsReadAs.spelled {text rest : List Char} {kind : TokenKind} {value : Value}
    {xs : List (TokenKind × Value)} (h : IsReadAs text rest kind value) (hrest : Spelled rest xs) :
    Spelled (text ++ rest) ((kind, value) :: xs) :=
  .token (x := (kind, value)) h hrest

namespace Spelled

variable {text rest : List Char} {xs : List (TokenKind × Value)}

lemma gapFrom_blank (n : Nat) (rest : List Char) :
    Lexeme.gapFrom .blanks n (' ' :: rest) = Lexeme.gapFrom .blanks (n + 1) rest := by
  rw [Lexeme.gapFrom.eq_def]
  rfl

/-- A text of which a gap has been read up to some of its blanks. -/
lemma exists_reads (h : Spelled text xs) (file : String) {p : Cursor} {n : Nat}
    (hrest : p.rest.drop n = text)
    (hgap : Lexeme.gap p.rest = Lexeme.gapFrom .blanks n text) :
    ∃ ts last, ts.map Token.content = xs ∧ last.content = (.eof, .null) ∧
      Reads file p (ts ++ [last]) := by
  induction h generalizing p n with
  | nil =>
    have hend : (p.skip n).rest = [] := (p.rest_skip n).trans hrest
    exact ⟨[], _, rfl, rfl, .last (hgap.trans rfl) hend⟩
  | @blank rest xs h ih =>
    refine ih (n := n + 1) ?_ (hgap.trans (gapFrom_blank n rest))
    rw [← List.drop_drop, hrest]
    rfl
  | @token text rest x xs ht h ih =>
    obtain ⟨c, cs, lexeme, htext, hscan, hkind, hvalue, hsize⟩ := ht.exists_scan
    have hhere : (p.skip n).rest = c :: cs := by rw [Cursor.rest_skip, hrest, htext]
    have hafter : ((p.skip n).skip lexeme.size).rest = rest := by
      rw [Cursor.rest_skip, hhere, hsize, ← htext, List.drop_left]
    obtain ⟨ts, last, hts, hlast, hreads⟩ :=
      ih (p := (p.skip n).skip lexeme.size) (n := 0) hafter (by rw [hafter]; rfl)
    refine ⟨_ :: ts, last, ?_, hlast, .lexeme (hgap.trans (ht.gapFrom_eq n)) hhere hscan hreads⟩
    rw [List.map_cons, hts, Token.content, hkind, hvalue]

/-- Such a text is read back as the tokens it was made of. -/
theorem exists_tokens {source : String} (h : Spelled source.toList xs) (file : String) :
    ∃ ts last, ts.map Token.content = xs ∧ last.content = (.eof, .null) ∧
      tokens source file = .ok (ts ++ [last]) := by
  obtain ⟨ts, last, hts, hlast, hreads⟩ :=
    h.exists_reads file (p := .start source.toList 1) (n := 0) rfl rfl
  exact ⟨ts, last, hts, hlast, tokens_eq_ok_iff.mpr hreads⟩

/-! ### Single blanks between tokens -/

lemma flatMap_blank {texts : List (List Char)} (h : List.Forall₂ (fun text x =>
      ∀ rest, AtBlank rest → IsReadAs text rest x.1 x.2) texts xs) :
    AtBlank (texts.flatMap fun text => ' ' :: text) ∧
      Spelled (texts.flatMap fun text => ' ' :: text) xs := by
  induction h with
  | nil => exact ⟨by simp [AtBlank], .nil⟩
  | cons ht h ih =>
    obtain ⟨hblank, hspelled⟩ := ih
    exact ⟨by simp [AtBlank], .blank (.token (ht _ hblank) hspelled)⟩

lemma intercalate_cons (text : List Char) (texts : List (List Char)) :
    [' '].intercalate (text :: texts) = text ++ texts.flatMap fun text => ' ' :: text := by
  induction texts generalizing text with
  | nil => simp
  | cons next texts ih =>
    rw [List.intercalate_cons_cons, ih]
    simp

/-- Texts that are each read as one token in front of a blank, with single blanks between them. -/
theorem intercalate {texts : List (List Char)} (h : List.Forall₂ (fun text x =>
      ∀ rest, AtBlank rest → IsReadAs text rest x.1 x.2) texts xs) :
    Spelled ([' '].intercalate texts) xs := by
  cases h with
  | nil => exact .nil
  | cons ht h =>
    obtain ⟨hblank, hspelled⟩ := flatMap_blank h
    rw [intercalate_cons]
    exact .token (ht _ hblank) hspelled

end Spelled

/-- A text that is read as one token where it ends at a blank. -/
structure Spelling where
  text : List Char
  kind : TokenKind
  value : Value
  gapFrom_eq : ∀ n rest, AtBlank rest → Lexeme.gapFrom .blanks n (text ++ rest) = .ok n
  exists_scan : ∀ rest, AtBlank rest → ∃ c cs lexeme, text ++ rest = c :: cs ∧
    Lexeme.scan c cs = .ok lexeme ∧ lexeme.kind = kind ∧ lexeme.value = value ∧
    lexeme.size = text.length

namespace Spelling

/-- Spellings with single blanks between them. -/
def spaced (xs : List Spelling) : String :=
  String.ofList ([' '].intercalate (xs.map text))

/-- What a token carries beside its place. -/
def content (x : Spelling) : TokenKind × Value := (x.kind, x.value)

/-- Spellings with single blanks between them are the tokens of their text. -/
theorem exists_tokens_spaced (xs : List Spelling) (file : String) :
    ∃ ts last, ts.map Token.content = xs.map content ∧ last.kind = .eof ∧
      tokens (spaced xs) file = .ok (ts ++ [last]) := by
  have hall : List.Forall₂ (fun text x => ∀ rest, AtBlank rest → IsReadAs text rest x.1 x.2)
      (xs.map text) (xs.map content) := by
    rw [List.forall₂_map_left_iff, List.forall₂_map_right_iff, List.forall₂_same]
    exact fun x _ rest hrest => ⟨fun n => x.gapFrom_eq n rest hrest, x.exists_scan rest hrest⟩
  have hspelled : Spelled (spaced xs).toList (xs.map content) := by
    rw [spaced, String.toList_ofList]
    exact Spelled.intercalate hall
  obtain ⟨ts, last, hts, hlast, htokens⟩ := hspelled.exists_tokens file
  exact ⟨ts, last, hts, congrArg Prod.fst hlast, htokens⟩

end Spelling

end LineScript
