import LineScript.Failure
import LineScript.Token.Lexeme

/-!
# Tokens of a source

The lexer walks over a source with a cursor that knows the line and column it is at and where its
line begins. Only a line feed begins a new line. The tokens before a failure are kept.
-/

namespace LineScript

open Text

/-- A place within a source that is being read. -/
structure Cursor where
  /-- The text from here on. -/
  rest : List Char
  line : Int
  column : Int
  /-- The text from the beginning of the line on. -/
  lineStart : List Char

namespace Cursor

/-- The beginning of a source whose first line has the given number. -/
def start (text : List Char) (line : Int) : Cursor := ⟨text, line, 1, text⟩

/-- One character further on. -/
def next (c : Cursor) : Cursor :=
  match c.rest with
  | [] => c
  | '\n' :: text => ⟨text, c.line + 1, 1, text⟩
  | _ :: text => { c with rest := text, column := c.column + 1 }

/-- Some characters further on. -/
def skip (c : Cursor) : Nat → Cursor
  | 0 => c
  | n + 1 => c.next.skip n

/-- The line that the cursor is on. -/
def lineText (c : Cursor) : String := String.ofList (untilNewline c.lineStart)

theorem rest_next (c : Cursor) : c.next.rest = c.rest.tail := by
  unfold next
  split <;> simp_all

@[simp] theorem rest_skip (c : Cursor) (n : Nat) : (c.skip n).rest = c.rest.drop n := by
  induction n generalizing c with
  | zero => rfl
  | succ n ih => simp [skip, ih, rest_next]

end Cursor

/-- The tokens of a source as far as they could be read, and why reading stopped if it did not
reach the end. -/
structure Lexed where
  tokens : List Token
  failure : Option Failure

namespace Lexed

/-- Another token in front. -/
def cons (t : Token) (l : Lexed) : Lexed := { l with tokens := t :: l.tokens }

/-- All tokens of a source, or the failure. -/
def result (l : Lexed) : Except Failure (List Token) :=
  match l.failure with
  | none => .ok l.tokens
  | some f => .error f

/-- The place of a token that begins at one cursor and ends at another. When the first line has
the number zero, a token on it is given the line it ends on. -/
def tokenPlace (file : String) (here after : Cursor) : Location :=
  ⟨file, if here.line = 0 then after.line else here.line, here.column⟩

/-- The failure of a scan that began at a cursor. It shows the line that reading had come to. -/
def scanFailure (file : String) (here : Cursor) : ScanFault → Failure
  | .badSyntax fault read =>
    .diagnostic ⟨.badSyntax fault, some ⟨file, here.line, here.column⟩, (here.skip read).lineText⟩
  | .numeral fault => .numeral fault

/-- The tokens from a cursor on, up to the one that marks the end. -/
def tokensFrom (file : String) (cursor : Cursor) : Lexed :=
  match Lexeme.gap cursor.rest with
  | .error start =>
    let here := cursor.skip start
    let place := ⟨file, here.line, here.column⟩
    ⟨[], some (.diagnostic (.of (.badSyntax .unterminatedComment) place))⟩
  | .ok n =>
    let here := cursor.skip n
    match _h : here.rest with
    | [] => ⟨[⟨.eof, .null, ⟨file, here.line, here.column⟩⟩], none⟩
    | c :: text =>
      match Lexeme.scan c text with
      | .error fault => ⟨[], some (scanFailure file here fault)⟩
      | .ok lexeme =>
        let after := here.skip lexeme.size
        let token := ⟨lexeme.kind, lexeme.value, tokenPlace file here after⟩
        (tokensFrom file after).cons token
termination_by cursor.rest.length
decreasing_by
  have hpos := lexeme.size_pos
  have hlen := congrArg List.length _h
  simp only [here, Cursor.rest_skip, List.length_drop, List.length_cons] at hlen ⊢
  omega

/-- The tokens of a source whose first line has the given number. -/
def ofSource (source file : String) (line : Int) : Lexed :=
  tokensFrom file (.start source.toList line)

end Lexed

/-- The tokens of a source, the last of which marks its end. -/
def tokens (source file : String) : Except Failure (List Token) :=
  (Lexed.ofSource source file 1).result

end LineScript
