import LineScript.Proofs.Text.Lines
import LineScript.Proofs.Token.Tiling

/-!
# The line that a fault shows

A text that is not read as a lexeme is reported where it begins, but the line that is shown is the
one that reading had come to. Nothing but a string is read beyond the end of a line, and only behind
a backslash. So the line that is shown stands as many lines below the place as line feeds were
escaped (`Lexed.failure_shows_line`).
-/

namespace LineScript

open Text

/-! ### What was read -/

/-- A string has no quote in the text, and none can come where the text is stopped. -/
inductive RunsOn (quote : Char) (after : List Char) : List Char → Prop where
  | stop (h : ∀ c ∈ after.head?, c = '\n') : RunsOn quote after []
  | alone (h : after = []) : RunsOn quote after ['\\']
  | plain {c : Char} {body : List Char} (hquote : c ≠ quote) (hnewline : c ≠ '\n')
      (hescape : c ≠ '\\') (h : RunsOn quote after body) : RunsOn quote after (c :: body)
  | escaped (e : Char) {body : List Char} (h : RunsOn quote after body) :
      RunsOn quote after ('\\' :: e :: body)

/-- The fault shows when the text has been read and another one comes behind it. -/
inductive Fails (after : List Char) : SyntaxFault → List Char → Prop where
  | string {quote : Char} {body : List Char} (hquote : quote = '\'' ∨ quote = '"')
      (h : RunsOn quote after body) : Fails after (.unterminatedString quote) (quote :: body)
  | atName (h : ∀ c ∈ after.head?, Lexeme.isNameStart c = false) :
      Fails after .missingVariableName ['@']
  | hexadecimal {mark : Char} (hmark : mark = 'x' ∨ mark = 'X')
      (h : ∀ c ∈ after.head?, hexDigitValue? c = none) : Fails after .missingHexDigits ['0', mark]
  | character {c : Char} (h : c ∈ after.head?) : Fails after (.invalidCharacter c) []

namespace RunsOn

variable {quote : Char} {after body front rest text : List Char} {read : Nat}

lemma exists_of_stringBody (h : Lexeme.stringBody quote text = .error read) :
    ∃ body after, text = body ++ after ∧ read = body.length ∧ RunsOn quote after body := by
  fun_induction Lexeme.stringBody quote text generalizing read with
  | case1 =>
    obtain rfl := Except.error.inj h
    exact ⟨[], [], rfl, rfl, .stop (by simp)⟩
  | case2 | case5 | case7 => cases h
  | case3 text hquote =>
    obtain rfl := Except.error.inj h
    exact ⟨[], '\n' :: text, rfl, rfl, .stop (by simp)⟩
  | case4 hquote hnewline =>
    obtain rfl := Except.error.inj h
    exact ⟨['\\'], [], rfl, rfl, .alone rfl⟩
  | case6 e text read' hbody hquote hnewline ih =>
    obtain rfl := Except.error.inj h
    obtain ⟨body, after, rfl, rfl, hruns⟩ := ih hbody
    exact ⟨'\\' :: e :: body, after, rfl, rfl, .escaped e hruns⟩
  | case8 c text hquote hnewline hescape read' hbody ih =>
    obtain rfl := Except.error.inj h
    obtain ⟨body, after, rfl, rfl, hruns⟩ := ih hbody
    exact ⟨c :: body, after, rfl, rfl, .plain hquote hnewline hescape hruns⟩

/-- A string is stopped by the end of a line or of the source. -/
lemma head?_after (h : RunsOn quote after body) : ∀ c ∈ after.head?, c = '\n' := by
  induction h with
  | stop h => exact h
  | alone h => simp [h]
  | plain hquote hnewline hescape h ih => exact ih
  | escaped e h ih => exact ih

/-- Behind a line feed, which must be escaped, a string goes on as if it began there. -/
lemma of_newline (h : RunsOn quote after (front ++ '\n' :: rest)) : RunsOn quote after rest := by
  generalize hbody : front ++ '\n' :: rest = body at h
  induction h generalizing front with
  | stop h => simp at hbody
  | alone h => simp [List.append_eq_singleton_iff] at hbody
  | @plain c body hquote hnewline hescape h ih =>
    cases front with
    | nil => exact absurd (List.cons.inj hbody).1.symm hnewline
    | cons d front => exact ih (List.cons.inj hbody).2
  | @escaped e body h ih =>
    match front with
    | [] => exact absurd (List.cons.inj hbody).1 (by decide)
    | [d] =>
      obtain ⟨-, rfl⟩ := List.cons.inj (List.cons.inj hbody).2
      exact h
    | d :: d' :: front => exact ih (List.cons.inj (List.cons.inj hbody).2).2

/-- A quote in a string that goes on has a backslash before it. -/
lemma getLast?_of_quote (h : RunsOn quote after (front ++ quote :: rest)) (hquote : '\\' ≠ quote) :
    front.getLast? = some '\\' := by
  generalize hbody : front ++ quote :: rest = body at h
  induction h generalizing front with
  | stop h => simp at hbody
  | alone h => simp [List.append_eq_singleton_iff, hquote.symm] at hbody
  | @plain c body hne hnewline hescape h ih =>
    cases front with
    | nil => exact absurd (List.cons.inj hbody).1.symm hne
    | cons d front => simp [List.getLast?_cons, ih (List.cons.inj hbody).2]
  | @escaped e body h ih =>
    match front with
    | [] => exact absurd (List.cons.inj hbody).1.symm hquote
    | [d] => rw [(List.cons.inj hbody).1]; rfl
    | d :: d' :: front =>
      simp [List.getLast?_cons, ih (List.cons.inj (List.cons.inj hbody).2).2]

end RunsOn

namespace Lexeme

variable {first : Char} {text : List Char} {fault : SyntaxFault} {size : Nat}

lemma decimal_ne_badSyntax (h : 0 < (text.takeWhile isDigit).length) :
    decimal text h ≠ .error (.badSyntax fault size) := by
  unfold decimal
  dsimp only
  split_ifs
  · split <;> simp
  · split <;> simp

/-- A text that is no lexeme has been read up to where that shows. -/
theorem exists_fails_of_scan (h : scan first text = .error (.badSyntax fault size)) :
    ∃ read after, first :: text = read ++ after ∧ size = read.length ∧ Fails after fault read := by
  unfold scan at h
  split_ifs at h with hnewline hname hdigit hquote hat
  · unfold number at h
    split_ifs at h with hmark
    · unfold isHexMark at hmark
      split at hmark
      · next mark tail heq =>
        obtain ⟨rfl, rfl⟩ := List.cons.inj heq
        simp only [hexadecimal, List.drop_succ_cons, List.drop_zero] at h
        split_ifs at h with hempty
        obtain ⟨rfl, rfl⟩ := ScanFault.badSyntax.inj (Except.error.inj h)
        refine ⟨['0', mark], tail, rfl, rfl, .hexadecimal (by simpa using hmark) ?_⟩
        cases tail with
        | nil => simp
        | cons c tail => simpa [List.takeWhile_cons] using hempty
      · cases hmark
    · exact absurd h (decimal_ne_badSyntax _)
  · unfold string at h
    split at h
    · cases h
    · next read hbody =>
      obtain ⟨rfl, rfl⟩ := ScanFault.badSyntax.inj (Except.error.inj h)
      obtain ⟨body, after, rfl, rfl, hruns⟩ := RunsOn.exists_of_stringBody hbody
      exact ⟨first :: body, after, rfl, rfl, .string (by simpa using hquote) hruns⟩
  · split at h
    · cases h
    · next hvariable =>
      obtain ⟨rfl, rfl⟩ := ScanFault.badSyntax.inj (Except.error.inj h)
      refine ⟨['@'], text, by rw [hat]; rfl, rfl, .atName ?_⟩
      simp only [atVariable] at hvariable
      split_ifs at hvariable with hstart
      simpa [Option.any_eq_false] using hstart
  · split at h
    · cases h
    · split at h
      · cases h
      · obtain ⟨rfl, rfl⟩ := ScanFault.badSyntax.inj (Except.error.inj h)
        exact ⟨[], first :: text, rfl, rfl, .character rfl⟩

end Lexeme

/-! ### The line of a cursor -/

/-- The beginning of the line that a text ends in. -/
def lineFront (before : List Char) : List Char := (before.reverse.takeWhile (· ≠ '\n')).reverse

variable {file : String} {line : Int} {before rest after read : List Char} {c : Cursor}

lemma lineFront_concat (before : List Char) (c : Char) :
    lineFront (before ++ [c]) = if c = '\n' then [] else lineFront before ++ [c] := by
  by_cases hc : c = '\n' <;> simp [lineFront, hc]

lemma lineFront_of_not_mem {front : List Char} (h : '\n' ∉ front) : lineFront front = front := by
  rw [lineFront, List.takeWhile_eq_self_iff.mpr, List.reverse_reverse]
  exact fun c hc => by simpa using ne_of_mem_of_not_mem (List.mem_reverse.mp hc) h

lemma lineFront_append_newline {front : List Char} (before : List Char) (h : '\n' ∉ front) :
    lineFront (before ++ '\n' :: front) = front := by
  have hall : ∀ c ∈ front.reverse, (decide (c ≠ '\n')) = true := fun c hc => by
    simpa using ne_of_mem_of_not_mem (List.mem_reverse.mp hc) h
  rw [lineFront, List.reverse_append, List.reverse_cons, List.append_assoc,
    List.takeWhile_append_of_pos hall]
  simp

lemma exists_eq_append_lineFront (before : List Char) :
    ∃ lines, before = lines ++ lineFront before :=
  ⟨(before.reverse.dropWhile (· ≠ '\n')).reverse, by
    rw [lineFront, ← List.reverse_append, List.takeWhile_append_dropWhile, List.reverse_reverse]⟩

lemma not_mem_lineFront (before : List Char) : '\n' ∉ lineFront before := fun h => by
  simpa using List.mem_takeWhile_imp (List.mem_reverse.mp h)

lemma untilNewline_append {front : List Char} (h : '\n' ∉ front) (rest : List Char) :
    untilNewline (front ++ rest) = front ++ untilNewline rest := by
  have hall : ∀ c ∈ front, (decide (c ≠ '\n')) = true := fun c hc => by
    simpa using ne_of_mem_of_not_mem hc h
  exact List.takeWhile_append_of_pos hall

/-- The line around a position has as many others before it as there are line feeds. -/
lemma getElem?_splitOn_newline (before rest : List Char) :
    ((before ++ rest).splitOn '\n')[before.count '\n']? =
      some (lineFront before ++ untilNewline rest) := by
  obtain ⟨lines, front, rfl, hlines, hfront, hcount, -⟩ := exists_eq_ended_append before
  have hhere : lineFront (ended lines ++ front) = front := by
    rcases lines.eq_nil_or_concat' with rfl | ⟨lines, line, rfl⟩
    · exact lineFront_of_not_mem hfront
    · have hended : ended (lines ++ [line]) ++ front = ended lines ++ line ++ '\n' :: front := by
        simp [ended]
      rw [hended, lineFront_append_newline _ hfront]
  have hhead : ((front ++ rest).splitOn '\n')[0]? = some (untilNewline (front ++ rest)) := by
    by_cases h : '\n' ∈ front ++ rest
    · obtain ⟨back, later, heq, hback⟩ := List.eq_append_cons_of_mem h
      rw [heq, splitOn_newline_append, splitOn_newline_of_not_mem hback, untilNewline_append hback]
      simp [untilNewline]
    · rw [splitOn_newline_of_not_mem h, ← List.append_nil (front ++ rest), untilNewline_append h]
      simp [untilNewline]
  rw [List.append_assoc, splitOn_ended_append hlines, ← hcount, List.getElem?_append_right le_rfl,
    Nat.sub_self, hhead, hhere, untilNewline_append hfront]

namespace Cursor

/-- The cursor stands behind the text, and knows the place and the beginning of its line. -/
structure IsBehind (file : String) (line : Int) (before : List Char) (c : Cursor) : Prop where
  place : c.place file = placeBehind file line before
  lineStart : c.lineStart = lineFront before ++ c.rest

lemma isBehind_start (file : String) (line : Int) (text : List Char) :
    (start text line).IsBehind file line [] :=
  ⟨placeBehind_nil.symm, rfl⟩

lemma IsBehind.skip (h : c.IsBehind file line before) (n : Nat) :
    (c.skip n).IsBehind file line (before ++ c.rest.take n) := by
  refine ⟨place_skip h.place n, ?_⟩
  have hline := h.lineStart
  clear h
  induction n generalizing c before with
  | zero => simpa [Cursor.skip] using hline
  | succ n ih =>
    cases hrest : c.rest with
    | nil =>
      have hnext : c.next = c := by simp [next, hrest]
      rw [Cursor.skip, hnext, ih hline, hrest, List.take_nil, List.take_nil]
    | cons d rest =>
      have hnext : c.next.lineStart = lineFront (before ++ [d]) ++ c.next.rest := by
        rw [lineFront_concat, rest_next, hrest, List.tail_cons]
        by_cases hd : d = '\n'
        · simp [next, hrest, hd]
        · simp [next, hrest, hd, hline]
      rw [Cursor.skip, ih hnext, rest_next, hrest]
      simp

end Cursor

/-! ### No backslash before a token -/

/-- No token ends in a backslash. -/
lemma Spells.getLast?_ne {kind : TokenKind} {value : Value} {text : List Char}
    (h : Spells kind value text) : text.getLast? ≠ some '\\' := by
  intro hlast
  rcases h.newline_or_string (.inr rfl) (List.mem_of_getLast? hlast) with
    ⟨-, -, rfl⟩ | ⟨quote, chars, body, hquote, -, -, -, rfl⟩
  · simp at hlast
  · rw [← List.cons_append, List.getLast?_concat] at hlast
    rcases hquote with rfl | rfl <;> simp at hlast

/-- Where a line goes on behind blanks, comments and tokens there is no backslash. -/
lemma Tiles.getLast?_ne {pieces : List Piece} (h : Tiles file line before pieces after)
    (hbefore : before.getLast? ≠ some '\\') {first : Char} (hfirst : after.head? = some first)
    (hnewline : first ≠ '\n') : (before ++ pieces.flatMap Piece.text).getLast? ≠ some '\\' := by
  have hline : ¬∀ c ∈ after.head?, c = '\n' := fun hall => hnewline (hall first hfirst)
  rcases pieces.eq_nil_or_concat' with rfl | ⟨pieces, piece, rfl⟩
  · simpa using hbefore
  · have hfits : piece.Fits file line (before ++ pieces.flatMap Piece.text) after := by
      simpa using (tiles_append.mp h).2.1
    rw [List.flatMap_append, List.flatMap_singleton, ← List.append_assoc]
    cases hfits with
    | @blank c hc =>
      have hc : c ≠ '\\' := by
        rintro rfl
        simp at hc
      simpa [Piece.text] using hc
    | comment hcomment =>
      cases hcomment with
      | hash hbody hrest | slashes hbody hrest => exact absurd hrest hline
      | block rest hbody => simp [Piece.text, List.getLast?_append, List.getLast?_cons]
    | token hspells =>
      rw [Piece.text, List.getLast?_append_of_ne_nil _ hspells.ne_nil]
      exact hspells.getLast?_ne

/-! ### Failures -/

/-- Behind a text another one is read that is no lexeme. The diagnostic about it is placed between
the two and shows the line in which reading stopped. -/
structure FailsBehind (file : String) (line : Int) (before read after : List Char)
    (d : Diagnostic) : Prop where
  fails : ∃ fault, d.complaint = .badSyntax fault ∧ Fails after fault read
  place : d.place = some (placeBehind file line before)
  sourceLine : d.sourceLine =
    some (String.ofList (lineFront (before ++ read) ++ untilNewline after))
  goesOn : ∀ c ∈ (read ++ after).head?, c ≠ '\n'
  getLast?_ne : before.getLast? ≠ some '\\'

lemma Cursor.IsBehind.text_eq (h : c.IsBehind file line before) :
    c.lineText = String.ofList (lineFront before ++ untilNewline c.rest) := by
  rw [lineText, h.lineStart, untilNewline_append (not_mem_lineFront before)]

lemma Lexed.exists_failsBehind {d : Diagnostic} {shown : String}
    (hbehind : c.IsBehind file line before) (hbefore : before.getLast? ≠ some '\\')
    (h : (tokensFrom file c).failure = some (.diagnostic d)) (hshown : d.sourceLine = some shown) :
    ∃ front read after, c.rest = front ++ (read ++ after) ∧
      FailsBehind file line (before ++ front) read after d := by
  fun_induction tokensFrom file c generalizing before with
  | case1 c start hgap here =>
    -- a comment without an end shows no line
    obtain rfl := Failure.diagnostic.inj (Option.some.inj h)
    cases hshown
  | case2 => cases h
  | case3 c n hgap here first text hrest fault =>
    rename_i hscan
    obtain ⟨pieces, htext, htake, -, htiles⟩ := Cursor.exists_tiles_of_gap hgap
    have hhere := hbehind.skip n
    rw [htake] at hhere
    cases fault with
    | numeral => cases h
    | badSyntax fault size =>
      obtain rfl := Failure.diagnostic.inj (Option.some.inj h)
      obtain ⟨read, after, hread, rfl, hfails⟩ := Lexeme.exists_fails_of_scan hscan
      have hnewline : first ≠ '\n' := by
        rintro rfl
        cases hscan
      have hafter := (hhere.skip read.length).text_eq
      rw [hrest, hread, List.take_left, Cursor.rest_skip, hrest, hread, List.drop_left] at hafter
      refine ⟨pieces.flatMap Piece.text, read, after, ?_, ⟨fault, rfl, hfails⟩, ?_, ?_, ?_, ?_⟩
      · rw [htext, hrest, hread]
      · exact congrArg some hhere.place
      · exact congrArg some hafter
      · rw [← hread]
        simpa using hnewline
      · exact Tiles.getLast?_ne (htiles file line before) hbefore
          (by rw [hrest]; rfl) hnewline
  | case4 c n hgap here first text hrest lexeme hscan after token =>
    rename_i ih
    obtain ⟨pieces, htext, htake, -, -⟩ := Cursor.exists_tiles_of_gap hgap
    obtain ⟨read, rest, hread, hsize, hspells⟩ := Lexeme.exists_spells_of_scan hscan
    have hbehind' := (hbehind.skip n).skip lexeme.size
    rw [htake, hrest, hread, hsize, List.take_left, ← hsize] at hbehind'
    have hlast : (before ++ pieces.flatMap Piece.text ++ read).getLast? ≠ some '\\' := by
      rw [List.getLast?_append_of_ne_nil _ hspells.ne_nil]
      exact hspells.getLast?_ne
    obtain ⟨front, failed, behind, hafter, hfails⟩ := ih hbehind' hlast h
    have hrest' : after.rest = rest := by
      rw [show after.rest = (here.skip lexeme.size).rest from rfl, Cursor.rest_skip, hrest, hread,
        hsize, List.drop_left]
    refine ⟨pieces.flatMap Piece.text ++ (read ++ front), failed, behind, ?_, ?_⟩
    · rw [htext, hrest, hread, ← hrest', hafter]
      simp
    · simpa using hfails

/-- Where a string goes on in a further line, this line is another one. -/
lemma FailsBehind.newline_not_mem {d : Diagnostic} (h : FailsBehind file line before read after d)
    (hsame : lineFront (before ++ read) ++ untilNewline after =
      lineFront before ++ untilNewline (read ++ after)) : '\n' ∉ read := by
  intro hnewline
  obtain ⟨fault, -, hfails⟩ := h.fails
  cases hfails with
  | @string quote body hquote hruns =>
    have hne : '\n' ≠ quote := by rcases hquote with rfl | rfl <;> decide
    have hbackslash : '\\' ≠ quote := by rcases hquote with rfl | rfl <;> decide
    have hstop : untilNewline after = [] := by
      cases after with
      | nil => rfl
      | cons c after => simp [untilNewline, hruns.head?_after c rfl]
    -- the last of the lines is shown; it begins behind the last line feed in the string
    obtain ⟨front, rest, hbody, hrest⟩ : ∃ front rest,
        body = front ++ '\n' :: rest ∧ '\n' ∉ rest := by
      have hmem : '\n' ∈ body := by simpa [hne] using hnewline
      obtain ⟨back, front, heq, hback⟩ := List.eq_append_cons_of_mem (List.mem_reverse.mpr hmem)
      refine ⟨front.reverse, back.reverse, ?_, by simpa using hback⟩
      rw [← List.reverse_reverse body, heq]
      simp
    have hshown : lineFront (before ++ quote :: body) = rest := by
      rw [hbody, ← List.cons_append, ← List.append_assoc, lineFront_append_newline _ hrest]
    -- if it were the first one, it would have the quote in it again
    rw [hshown, hstop, List.append_nil, List.cons_append, untilNewline, List.takeWhile_cons_of_pos
      (by simpa using hne.symm)] at hsame
    rw [hbody, hsame] at hruns
    have hlast := hruns.of_newline.getLast?_of_quote hbackslash
    obtain ⟨lines, hlines⟩ := exists_eq_append_lineFront before
    refine h.getLast?_ne ?_
    rw [hlines, List.getLast?_append, hlast]
    rfl
  | hexadecimal hmark => rcases hmark with rfl | rfl <;> simp at hnewline
  | atName | character => simp at hnewline

lemma Lexed.failure_of_result {l : Lexed} {f : Failure} (h : l.result = .error f) :
    l.failure = some f := by
  unfold result at h
  split at h
  · cases h
  · next hfailure => rw [hfailure, Except.error.inj h]

/-- A diagnostic about a text that is no lexeme is placed where this text begins. The line that it
shows is as many lines below that of its place as line feeds were read, which all are escaped in a
string; it is the line of its place just if there are none. -/
theorem Lexed.failure_shows_line {source : String} {d : Diagnostic} {shown : String}
    (h : (ofSource source file line).result = .error (.diagnostic d))
    (hshown : d.sourceLine = some shown) :
    ∃ before read after fault lines here later, source.toList = before ++ (read ++ after) ∧
      d.complaint = .badSyntax fault ∧ Fails after fault read ∧
      d.place = some (placeBehind file line before) ∧
      source.toList.splitOn '\n' = lines ++ here :: later ∧ lines.length = before.count '\n' ∧
      (placeBehind file line before).column ≤ here.length ∧
      (here :: later)[read.count '\n']? = some shown.toList ∧
      (shown.toList = here ↔ '\n' ∉ read) := by
  obtain ⟨before, read, after, hsource, hfails⟩ := exists_failsBehind
    (Cursor.isBehind_start file line source.toList) (by simp) (failure_of_result h) hshown
  have hsource : source.toList = before ++ (read ++ after) := hsource
  rw [List.nil_append] at hfails
  obtain ⟨fault, hfault, hread⟩ := hfails.fails
  have htext : shown.toList = lineFront (before ++ read) ++ untilNewline after := by
    rw [Option.some.inj (hshown.symm.trans hfails.sourceLine), String.toList_ofList]
  -- one look-up finds the line of the place, another one the line that is shown
  have hhere := getElem?_splitOn_newline before (read ++ after)
  have hbelow := getElem?_splitOn_newline (before ++ read) after
  rw [← hsource] at hhere
  rw [List.append_assoc, ← hsource, ← htext, List.count_append] at hbelow
  obtain ⟨hlength, hget⟩ := List.getElem?_eq_some_iff.mp hhere
  have hsplit := (List.take_append_drop (before.count '\n') (source.toList.splitOn '\n')).symm
  rw [List.drop_eq_getElem_cons hlength, hget] at hsplit
  have hlines : ((source.toList.splitOn '\n').take (before.count '\n')).length =
      before.count '\n' := List.length_take_of_le hlength.le
  refine ⟨before, read, after, fault, _, _, _, hsource, hfault, hread, hfails.place, hsplit, hlines,
    ?_, ?_, ?_⟩
  · -- a character of the line stands at the place
    obtain ⟨c, rest, hrest⟩ : ∃ c rest, read ++ after = c :: rest := by
      cases hread with
      | string | atName | hexadecimal => exact ⟨_, _, rfl⟩
      | character hc =>
        obtain ⟨rest, rfl⟩ := List.head?_eq_some_iff.mp hc
        exact ⟨_, rest, rfl⟩
    have hc : c ≠ '\n' := hfails.goesOn c (by rw [hrest]; rfl)
    simp only [placeBehind, lineFront, List.length_append, List.length_reverse, hrest, untilNewline,
      List.takeWhile_cons_of_pos (p := fun c => decide (c ≠ '\n')) (by simpa using hc),
      List.length_cons]
    omega
  · rw [hsplit, List.getElem?_append_right (by rw [hlines]; omega), hlines,
      Nat.add_sub_cancel_left] at hbelow
    exact hbelow
  · refine ⟨fun hsame => hfails.newline_not_mem (htext.symm.trans hsame), fun hnot => ?_⟩
    rw [List.count_eq_zero_of_not_mem hnot, Nat.add_zero, hhere] at hbelow
    exact (Option.some.inj hbelow).symm

/-- A diagnostic of a source can be told by looking at it. -/
lemma Lexed.result_eq_diagnostic {l : Lexed} {d : Diagnostic}
    (h : (match l.failure with | some (.diagnostic e) => decide (e = d) | _ => false) = true) :
    l.result = .error (.diagnostic d) := by
  unfold result
  split at h
  · next e hfailure => rw [hfailure, of_decide_eq_true h]
  · cases h

/-- A string that begins behind a comment of two lines goes on in a third one, which is shown. -/
theorem Lexed.failure_shows_third_line :
    let source := "/* x\n*/ 'a\\\nb\\'c\nd"
    let d : Diagnostic :=
      ⟨.badSyntax (.unterminatedString '\''), some ⟨"f.ms", 2, 4⟩, some "b\\'c"⟩
    (ofSource source "f.ms" 1).result = .error (.diagnostic d) ∧ d.sourceLine = some "b\\'c" ∧
      ∃ before read after fault lines here later, source.toList = before ++ (read ++ after) ∧
        d.complaint = .badSyntax fault ∧ Fails after fault read ∧
        d.place = some (placeBehind "f.ms" 1 before) ∧
        source.toList.splitOn '\n' = lines ++ here :: later ∧ lines.length = before.count '\n' ∧
        (placeBehind "f.ms" 1 before).column ≤ here.length ∧
        (here :: later)[read.count '\n']? = some "b\\'c".toList ∧
        ("b\\'c".toList = here ↔ '\n' ∉ read) := by
  intro source d
  have hresult : (ofSource source "f.ms" 1).result = .error (.diagnostic d) :=
    result_eq_diagnostic (by decide +kernel)
  exact ⟨hresult, rfl, failure_shows_line hresult rfl⟩

/-- The diagnostic about a string whose line feed is escaped shows the line below that of its
place. -/
theorem Lexed.failure_shows_next_line :
    ¬∀ (source file : String) (line : Int) (d : Diagnostic) (p : Location) (shown : String),
      (ofSource source file line).result = .error (.diagnostic d) → d.place = some p →
      d.sourceLine = some shown →
      (source.toList.splitOn '\n')[(p.line - line).toNat]? = some shown.toList := by
  intro hclaim
  have hresult : (ofSource "'a\\\nb" "f.ms" 1).result = .error (.diagnostic
      ⟨.badSyntax (.unterminatedString '\''), some ⟨"f.ms", 1, 1⟩, some "b"⟩) :=
    result_eq_diagnostic (by decide +kernel)
  have hline := hclaim _ _ _ _ _ _ hresult rfl rfl
  exact absurd hline (by decide +kernel)

end LineScript
