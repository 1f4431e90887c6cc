import LineScript.Proofs.Token.Lookahead
import LineScript.Proofs.Token.Reading
import LineScript.Proofs.Tree.Relocation

/-!
# Sources with a line feed between them

Two sources that can be read can be joined by a line feed: it takes the place of the first end, and
the tokens of the second source follow, on later lines.
-/

namespace LineScript

/-! ### Cursors in longer and in later sources -/

/-- The same place some lines further down. -/
def Location.below (lines : Int) (p : Location) : Location := { p with line := p.line + lines }

namespace Cursor

variable {c : Cursor}

/-- The cursor at the same place in a source that goes on. -/
def extend (c : Cursor) (text : List Char) : Cursor :=
  ⟨c.rest ++ text, c.line, c.column, c.lineStart ++ text⟩

/-- The cursor some lines further down. -/
def below (c : Cursor) (lines : Int) : Cursor := { c with line := c.line + lines }

/-- The line that the source ends on. -/
def lastLine (c : Cursor) : Int := c.line + c.rest.count '\n'

lemma next_extend (h : c.rest ≠ []) (text : List Char) :
    (c.extend text).next = c.next.extend text := by
  obtain ⟨rest, line, column, lineStart⟩ := c
  cases rest with
  | nil => exact absurd rfl h
  | cons first rest =>
    by_cases hnewline : first = '\n'
    · subst hnewline
      rfl
    · simp [extend, next]

lemma skip_extend {n : Nat} (h : n ≤ c.rest.length) (text : List Char) :
    (c.extend text).skip n = (c.skip n).extend text := by
  induction n generalizing c with
  | zero => rfl
  | succ n ih =>
    have hne : c.rest ≠ [] := by
      rintro hnil
      simp [hnil] at h
    have hle : n ≤ c.next.rest.length := by
      rw [rest_next, List.length_tail]
      omega
    rw [skip, skip, next_extend hne, ih hle]

lemma skip_extend_of_gap {n : Nat} (h : Lexeme.gap c.rest = .ok n) (text : List Char) :
    (c.extend text).skip n = (c.skip n).extend text :=
  skip_extend (by simpa using (Lexeme.gapFrom_bounds h).2) text

lemma next_below (c : Cursor) (lines : Int) : (c.below lines).next = c.next.below lines := by
  obtain ⟨rest, line, column, lineStart⟩ := c
  cases rest with
  | nil => rfl
  | cons first rest =>
    by_cases hnewline : first = '\n'
    · subst hnewline
      simp only [below, next]
      congr 1
      omega
    · simp [below, next]

lemma skip_below (c : Cursor) (lines : Int) (n : Nat) :
    (c.below lines).skip n = (c.skip n).below lines := by
  induction n generalizing c with
  | zero => rfl
  | succ n ih => rw [skip, skip, next_below, ih]

lemma lastLine_next (c : Cursor) : c.next.lastLine = c.lastLine := by
  obtain ⟨rest, line, column, lineStart⟩ := c
  cases rest with
  | nil => rfl
  | cons first rest =>
    by_cases hnewline : first = '\n'
    · subst hnewline
      simp only [lastLine, next, List.count_cons_self]
      omega
    · simp [lastLine, next, hnewline]

lemma lastLine_skip (c : Cursor) (n : Nat) : (c.skip n).lastLine = c.lastLine := by
  induction n generalizing c with
  | zero => rfl
  | succ n ih => rw [skip, ih, lastLine_next]

end Cursor

/-! ### Reading joined sources -/

variable {file : String} {c : Cursor} {ts us : List Token} {last : Token}

/-- A source is read in the same way some lines further down. -/
lemma Reads.relocate (h : Reads file c ts) (hline : 1 ≤ c.line) {lines : Int} (hlines : 0 ≤ lines) :
    Reads file (c.below lines) (ts.map (Token.relocate (Location.below lines))) := by
  induction h with
  | @last c n hgap hrest =>
    have hlast : Reads file (c.below lines) [⟨.eof, .null, ((c.below lines).skip n).place file⟩] :=
      .last hgap (by rw [Cursor.skip_below]; exact hrest)
    rw [Cursor.skip_below] at hlast
    exact hlast
  | @lexeme c n first text lexeme ts hgap hrest hscan h ih =>
    have hhere : 1 ≤ (c.skip n).line := hline.trans (c.line_le_skip n)
    have hafter := hhere.trans ((c.skip n).line_le_skip lexeme.size)
    have htoken : Reads file (c.below lines) (⟨lexeme.kind, lexeme.value, _⟩ :: _) :=
      .lexeme hgap (by rw [Cursor.skip_below]; exact hrest) hscan
        (by rw [Cursor.skip_below, Cursor.skip_below]; exact ih hafter)
    rw [Cursor.skip_below, Lexed.tokenPlace_eq (by simp [Cursor.below]; omega)] at htoken
    rw [List.map_cons, Lexed.tokenPlace_eq (by omega)]
    exact htoken

/-- A line feed takes the place of the end where another source can be read behind it. -/
lemma Reads.append (h : Reads file c ts) (hline : 1 ≤ c.line) {text : List Char}
    (htext : Reads file ⟨text, c.lastLine + 1, 1, text⟩ us) :
    ∃ vs last, ts = vs ++ [last] ∧
      Reads file (c.extend ('\n' :: text)) (vs ++ ⟨.newline, .null, last.place⟩ :: us) := by
  induction h with
  | @last c n hgap hrest =>
    -- the gap at the end stops at the line feed, which is a lexeme by itself
    refine ⟨[], _, rfl, ?_⟩
    have hhere : (c.extend ('\n' :: text)).skip n = (c.skip n).extend ('\n' :: text) :=
      Cursor.skip_extend_of_gap hgap _
    have hchars : ((c.skip n).extend ('\n' :: text)).rest = '\n' :: text := by
      rw [Cursor.extend, hrest, List.nil_append]
    have hlastLine : c.lastLine = (c.skip n).line := by
      rw [← c.lastLine_skip n, Cursor.lastLine, hrest, List.count_nil]
      simp
    have hafter : ((c.skip n).extend ('\n' :: text)).skip 1 = ⟨text, c.lastLine + 1, 1, text⟩ := by
      rw [hlastLine, Cursor.skip, Cursor.skip, Cursor.next, hchars]
      rfl
    have hscan : Lexeme.scan '\n' text = .ok ⟨.newline, .null, 1, by omega⟩ := by
      simp [Lexeme.scan]
    have hgap' : Lexeme.gap (c.extend ('\n' :: text)).rest = .ok n :=
      Lexeme.gapFrom_append_newline hgap text
    have hnewline : Reads file (c.extend ('\n' :: text)) (⟨.newline, .null, _⟩ :: us) :=
      .lexeme hgap' (hhere ▸ hchars) hscan
        (by rw [hhere, hafter]; exact htext)
    rw [hhere, Lexed.tokenPlace_eq ?_] at hnewline
    · exact hnewline
    · have := c.line_le_skip n
      simp only [Cursor.extend]
      omega
  | @lexeme c n first chars lexeme ts hgap hrest hscan h ih =>
    have hline' : 1 ≤ (c.skip n).line := hline.trans (c.line_le_skip n)
    obtain ⟨vs, last, rfl, hreads⟩ := ih (hline'.trans ((c.skip n).line_le_skip lexeme.size))
      (by rw [Cursor.lastLine_skip, Cursor.lastLine_skip]; exact htext)
    refine ⟨_ :: vs, last, rfl, ?_⟩
    have hsize : lexeme.size ≤ (c.skip n).rest.length := by
      rw [hrest]
      exact Lexeme.size_le hscan
    have hhere : (c.extend ('\n' :: text)).skip n = (c.skip n).extend ('\n' :: text) :=
      Cursor.skip_extend_of_gap hgap _
    have hafter : ((c.skip n).extend ('\n' :: text)).skip lexeme.size =
        ((c.skip n).skip lexeme.size).extend ('\n' :: text) := Cursor.skip_extend hsize _
    have hchars : ((c.skip n).extend ('\n' :: text)).rest = first :: (chars ++ '\n' :: text) := by
      rw [Cursor.extend, hrest, List.cons_append]
    have htoken : Reads file (c.extend ('\n' :: text)) (⟨lexeme.kind, lexeme.value, _⟩ :: _) :=
      .lexeme (Lexeme.gapFrom_append_newline hgap text) (hhere ▸ hchars)
        (Lexeme.scan_append_newline hscan text) (by rw [hhere, hafter]; exact hreads)
    rw [hhere, Lexed.tokenPlace_eq (by simp only [Cursor.extend]; omega)] at htoken
    rw [List.cons_append, Lexed.tokenPlace_eq (by omega)]
    exact htoken

/-- The number of lines of a text, an empty last one included. -/
def lineCount (source : String) : Nat := source.toList.count '\n' + 1

/-- The tokens of two sources with a line feed between them. It stands where the first source
ends, and what follows it stands as many lines further down as the first source has. -/
theorem tokens_joined {first second : String} (hts : tokens first file = .ok ts)
    (hus : tokens second file = .ok us) :
    ∃ vs last, ts = vs ++ [last] ∧ tokens (first ++ "\n" ++ second) file =
      .ok (vs ++ ⟨.newline, .null, last.place⟩ ::
        us.map (Token.relocate (Location.below (lineCount first)))) := by
  rw [tokens_eq_ok_iff] at hts hus
  have hlines : 0 ≤ (lineCount first : Int) := by omega
  have hsecond := hus.relocate le_rfl hlines
  have hstart : (Cursor.start second.toList 1).below (lineCount first) =
      ⟨second.toList, (Cursor.start first.toList 1).lastLine + 1, 1, second.toList⟩ := by
    simp only [Cursor.below, Cursor.start, Cursor.lastLine, lineCount]
    congr 1
  rw [hstart] at hsecond
  obtain ⟨vs, last, rfl, hreads⟩ := hts.append le_rfl hsecond
  refine ⟨vs, last, rfl, ?_⟩
  rw [tokens_eq_ok_iff]
  simpa [Cursor.start, Cursor.extend] using hreads

end LineScript
