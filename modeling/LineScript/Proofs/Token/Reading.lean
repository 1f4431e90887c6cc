import LineScript.Token.Lexer
import Mathlib.Data.Prod.Lex
import Mathlib.Tactic.Common

/-!
# Sources that can be read

`Reads` says how a source is read that has no fault: a gap, a lexeme, and so on up to the end. The
end has a token of its own, which is the last, and every token begins behind the one before it, so
that no two tokens of a source have the same place.
-/

namespace LineScript

/-- Where a place is within its source: by line first, then by column. -/
def Location.position (p : Location) : ℤ ×ₗ ℤ := toLex (p.line, p.column)

namespace Cursor

def position (c : Cursor) : ℤ ×ₗ ℤ := toLex (c.line, c.column)

/-- The place of a cursor in a named source. -/
def place (c : Cursor) (file : String) : Location := ⟨file, c.line, c.column⟩

variable {c : Cursor}

lemma position_lt_next (h : c.rest ≠ []) : c.position < c.next.position := by
  rw [position, position, Prod.Lex.toLex_lt_toLex]
  unfold next
  split
  · next hnil => exact absurd hnil h
  · exact Or.inl (Int.lt_succ c.line)
  · exact Or.inr ⟨rfl, Int.lt_succ c.column⟩

lemma position_le_skip (c : Cursor) (n : Nat) : c.position ≤ (c.skip n).position := by
  induction n generalizing c with
  | zero => exact le_rfl
  | succ n ih =>
    have hnext : c.position ≤ c.next.position := by
      by_cases h : c.rest = []
      · simp [next, h]
      · exact (position_lt_next h).le
    exact hnext.trans (ih c.next)

lemma position_lt_skip (h : c.rest ≠ []) {n : Nat} (hn : 0 < n) :
    c.position < (c.skip n).position := by
  obtain ⟨n, rfl⟩ := Nat.exists_eq_succ_of_ne_zero hn.ne'
  exact (position_lt_next h).trans_le (position_le_skip c.next n)

lemma line_le_skip (c : Cursor) (n : Nat) : c.line ≤ (c.skip n).line := by
  have hle := position_le_skip c n
  rw [position, position, Prod.Lex.toLex_le_toLex] at hle
  omega

end Cursor

/-! ### Reading without a fault -/

/-- From the cursor on exactly these tokens are read, the last of them at the end of the source. -/
inductive Reads (file : String) : Cursor → List Token → Prop where
  | last {c : Cursor} {n : Nat} (hgap : Lexeme.gap c.rest = .ok n) (hrest : (c.skip n).rest = []) :
      Reads file c [⟨.eof, .null, (c.skip n).place file⟩]
  | lexeme {c : Cursor} {n : Nat} {first : Char} {text : List Char} {lexeme : Lexeme}
      {ts : List Token} (hgap : Lexeme.gap c.rest = .ok n) (hrest : (c.skip n).rest = first :: text)
      (hscan : Lexeme.scan first text = .ok lexeme)
      (h : Reads file ((c.skip n).skip lexeme.size) ts) :
      Reads file c (⟨lexeme.kind, lexeme.value,
        Lexed.tokenPlace file (c.skip n) ((c.skip n).skip lexeme.size)⟩ :: ts)

variable {file : String} {c : Cursor} {ts : List Token} {t : Token}

lemma Lexed.cons_eq_iff {l : Lexed} : l.cons t = ⟨ts, none⟩ ↔
    ∃ us, ts = t :: us ∧ l = ⟨us, none⟩ := by
  obtain ⟨tokens, failure⟩ := l
  simp only [Lexed.cons, Lexed.mk.injEq]
  constructor
  · rintro ⟨rfl, rfl⟩
    exact ⟨tokens, rfl, rfl, rfl⟩
  · rintro ⟨us, rfl, rfl, rfl⟩
    exact ⟨rfl, rfl⟩

lemma reads_of_tokensFrom (h : Lexed.tokensFrom file c = ⟨ts, none⟩) : Reads file c ts := by
  fun_induction Lexed.tokensFrom file c generalizing ts with
  | case1 => cases h
  | case2 c n hgap here =>
    obtain rfl := (Lexed.mk.inj h).1
    exact .last hgap ‹here.rest = []›
  | case3 => cases h
  | case4 c n hgap here first text hrest lexeme hscan after token =>
    rename_i ih
    obtain ⟨us, rfl, htail⟩ := Lexed.cons_eq_iff.mp h
    exact .lexeme hgap hrest hscan (ih htail)

lemma Reads.tokensFrom_eq (h : Reads file c ts) : Lexed.tokensFrom file c = ⟨ts, none⟩ := by
  induction h with
  | @last c n hgap hrest =>
    rw [Lexed.tokensFrom]
    simp only [hgap]
    split
    · rfl
    · next hcons => exact absurd (hrest.symm.trans hcons) (List.cons_ne_nil _ _).symm
  | @lexeme c n first text lexeme ts hgap hrest hscan h ih =>
    rw [Lexed.tokensFrom]
    simp only [hgap]
    split
    · next hnil => exact absurd (hrest.symm.trans hnil) (List.cons_ne_nil first text)
    · next first' text' hcons =>
      obtain ⟨rfl, rfl⟩ := List.cons.inj (hrest.symm.trans hcons)
      simp only [hscan, ih]
      rfl

/-- The tokens of a source are those that are read from its beginning, whatever the number of its
first line. -/
theorem Lexed.result_ofSource_eq_ok_iff {source : String} {line : Int} :
    (Lexed.ofSource source file line).result = .ok ts ↔
      Reads file (.start source.toList line) ts := by
  unfold Lexed.result Lexed.ofSource
  constructor
  · intro h
    split at h
    · next hnone =>
      obtain rfl := Except.ok.inj h
      exact reads_of_tokensFrom (congrArg (Lexed.mk _) hnone)
    · cases h
  · intro h
    simp [h.tokensFrom_eq]

theorem tokens_eq_ok_iff {source : String} :
    tokens source file = .ok ts ↔ Reads file (.start source.toList 1) ts :=
  Lexed.result_ofSource_eq_ok_iff

/-! ### The last token -/

lemma TokenKind.ofDelimiter?_ne {c : Char} {kind : TokenKind}
    (h : kind ∈ [.eof, .newline, .symbol, .number, .variable, .word]) :
    TokenKind.ofDelimiter? c ≠ some kind := by
  intro hc
  unfold TokenKind.ofDelimiter? at hc
  split at hc <;> cases hc <;> simp at h

namespace Lexeme

variable {first quote : Char} {text : List Char} {lexeme : Lexeme}

lemma kind_of_number {h : Text.isDigit first = true}
    (hnumber : number first text h = .ok lexeme) : lexeme.kind = .number := by
  simp only [number, hexadecimal, decimal] at hnumber
  split_ifs at hnumber
  · exact (Except.ok.inj hnumber) ▸ rfl
  · split at hnumber
    · exact (Except.ok.inj hnumber) ▸ rfl
    · cases hnumber
  · split at hnumber
    · exact (Except.ok.inj hnumber) ▸ rfl
    · cases hnumber

lemma kind_of_string (h : string quote text = .ok lexeme) : lexeme.kind = .string := by
  unfold string at h
  split at h
  · exact (Except.ok.inj h) ▸ rfl
  · cases h

lemma kind_of_atVariable (h : atVariable text = some lexeme) : lexeme.kind = .variable := by
  simp only [atVariable] at h
  split_ifs at h
  exact (Option.some.inj h) ▸ rfl

lemma kind_ne_eof (h : scan first text = .ok lexeme) : lexeme.kind ≠ .eof := by
  unfold scan at h
  split_ifs at h with hnewline hname hdigit hquote hat
  · obtain rfl := Except.ok.inj h
    simp
  · obtain rfl := Except.ok.inj h
    simp only [word, TokenKind.ofWord]
    split_ifs <;> simp
  · rw [kind_of_number h]
    simp
  · rw [kind_of_string h]
    simp
  · split at h
    · next hvariable =>
      obtain rfl := Except.ok.inj h
      rw [kind_of_atVariable hvariable]
      simp
    · cases h
  · split at h
    · next kind hkind =>
      obtain rfl := Except.ok.inj h
      rintro rfl
      exact TokenKind.ofDelimiter?_ne (by simp) hkind
    · split at h
      · obtain rfl := Except.ok.inj h
        simp
      · cases h

end Lexeme

/-- Only the last token marks the end. -/
lemma Reads.exists_last (h : Reads file c ts) :
    ∃ us last, ts = us ++ [last] ∧ last.kind = .eof ∧ ∀ t ∈ us, t.kind ≠ .eof := by
  induction h with
  | last => exact ⟨[], _, rfl, rfl, by simp⟩
  | lexeme hgap hrest hscan h ih =>
    obtain ⟨us, last, rfl, hlast, hus⟩ := ih
    exact ⟨_ :: us, last, rfl, hlast, List.forall_mem_cons.mpr ⟨Lexeme.kind_ne_eof hscan, hus⟩⟩

/-- The last token of a source marks its end, and no other one does. -/
lemma kind_of_tokens {source : String} {last : Token}
    (h : tokens source file = .ok (ts ++ [last])) :
    last.kind = .eof ∧ ∀ t ∈ ts, t.kind ≠ .eof := by
  obtain ⟨us, last', heq, hlast, hus⟩ := (tokens_eq_ok_iff.mp h).exists_last
  obtain ⟨rfl, hsame⟩ := List.append_inj' heq rfl
  obtain rfl := List.singleton_inj.mp hsame
  exact ⟨hlast, hus⟩

/-! ### Symbols -/

lemma Lexeme.exists_symbol?_of_scan {first : Char} {text : List Char} {lexeme : Lexeme}
    (h : scan first text = .ok lexeme) (hkind : lexeme.kind = .symbol) :
    ∃ s, symbol? (first :: text) = some s ∧ lexeme.value = .text s ∧ lexeme.size = s.length := by
  unfold scan at h
  split_ifs at h with hnewline hname hdigit hquote hat
  · obtain rfl := Except.ok.inj h
    cases hkind
  · obtain rfl := Except.ok.inj h
    simp only [word, TokenKind.ofWord] at hkind
    split_ifs at hkind
  · cases (kind_of_number h).symm.trans hkind
  · cases (kind_of_string h).symm.trans hkind
  · split at h
    · next hvariable =>
      obtain rfl := Except.ok.inj h
      cases (kind_of_atVariable hvariable).symm.trans hkind
    · cases h
  · split at h
    · next kind hdelimiter =>
      obtain rfl := Except.ok.inj h
      obtain rfl : kind = .symbol := hkind
      exact absurd hdelimiter (TokenKind.ofDelimiter?_ne (by simp))
    · split at h
      · next spelling hspelling =>
        obtain rfl := Except.ok.inj h
        exact ⟨spelling, hspelling, rfl, rfl⟩
      · cases h

lemma Lexeme.isKnown_of_scan {first : Char} {text : List Char} {lexeme : Lexeme}
    (h : scan first text = .ok lexeme) (hkind : lexeme.kind = .symbol) :
    Operator.isKnown lexeme.value.plain = true := by
  obtain ⟨s, hs, hvalue, -⟩ := exists_symbol?_of_scan h hkind
  rw [hvalue]
  exact (Operator.mem_spellings_iff s).mp (List.mem_of_find?_eq_some hs)

/-- Every symbol that is read stands for an operation. -/
lemma Reads.isKnown_name (h : Reads file c ts) (ht : t ∈ ts) (hkind : t.kind = .symbol) :
    Operator.isKnown t.name = true := by
  induction h with
  | last hgap hrest =>
    obtain rfl := List.mem_singleton.mp ht
    cases hkind
  | lexeme hgap hrest hscan h ih =>
    rcases List.mem_cons.mp ht with rfl | ht
    · exact Lexeme.isKnown_of_scan hscan hkind
    · exact ih ht

/-! ### The order of places -/

lemma Lexed.tokenPlace_eq {here after : Cursor} (h : here.line ≠ 0) :
    Lexed.tokenPlace file here after = here.place file := by
  simp [Lexed.tokenPlace, Cursor.place, h]

/-- The tokens begin at or behind the cursor, each of them behind the one before. -/
lemma Reads.position_lt (h : Reads file c ts) (hline : 1 ≤ c.line) :
    (∀ t ∈ ts, c.position ≤ t.place.position) ∧
      ts.Pairwise fun t u => t.place.position < u.place.position := by
  induction h with
  | @last c n hgap hrest =>
    have hle : c.position ≤ ((c.skip n).place file).position := c.position_le_skip n
    exact ⟨by simpa using hle, by simp⟩
  | @lexeme c n first text lexeme ts hgap hrest hscan h ih =>
    have hle := c.position_le_skip n
    have hhere : 1 ≤ (c.skip n).line := hline.trans (c.line_le_skip n)
    have hlt := Cursor.position_lt_skip (hrest ▸ List.cons_ne_nil first text) lexeme.size_pos
    obtain ⟨hafter, hpairwise⟩ := ih (hhere.trans (Cursor.line_le_skip _ _))
    rw [Lexed.tokenPlace_eq (by omega)]
    refine ⟨List.forall_mem_cons.mpr ⟨hle, fun t ht => ?_⟩, List.pairwise_cons.mpr ⟨?_, hpairwise⟩⟩
    · exact hle.trans (hlt.le.trans (hafter t ht))
    · exact fun t ht => hlt.trans_le (hafter t ht)

/-- No two tokens of a source have the same place. -/
theorem nodup_places {source : String} (h : tokens source file = .ok ts) :
    (ts.map Token.place).Nodup := by
  have hpairwise := ((tokens_eq_ok_iff.mp h).position_lt le_rfl).2
  rw [List.Nodup, List.pairwise_map]
  exact hpairwise.imp fun hlt heq => hlt.ne (congrArg Location.position heq)

end LineScript
