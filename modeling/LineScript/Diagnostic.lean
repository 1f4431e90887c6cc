import LineScript.Location
import LineScript.Text.Lines

/-!
# Diagnostics

What is wrong with a script at a place, and how it is shown: a line with the place and the
message, then, when the source line is known, this line with a caret under the column, then a hint
if there is one.
-/

namespace LineScript

/-- What the lexer or the grouping of tokens finds wrong with a script. -/
inductive SyntaxFault where
  | unterminatedComment
  | unterminatedString (quote : Char)
  | missingVariableName
  | missingHexDigits
  | invalidCharacter (c : Char)
  /-- A token stands where it must not; its value is shown. -/
  | unexpectedToken (shown : String)
  | unexpectedEnd
  /-- A group is not closed by the end of the script. -/
  | unterminatedGroup (closer : String)
  /-- Several regions were found where one expression is wanted. -/
  | severalRegions (count : Nat)
  /-- A fault that is described from outside. -/
  | described (message : String) (hint : Option String)
deriving DecidableEq

namespace SyntaxFault

/-- A description of the fault. -/
def message : SyntaxFault → String
  | .unterminatedComment => "unterminated multi-line comment"
  | .unterminatedString _ => "unterminated string literal"
  | .missingVariableName => "expected variable name after '@'"
  | .missingHexDigits => "expected hexadecimal digits after '0x'"
  | .invalidCharacter c =>
    let digits := (Nat.toDigits 16 c.toNat).map Char.toUpper
    let code := String.ofList (List.replicate (2 - digits.length) '0' ++ digits)
    s!"invalid character '{c}' (0x{code})"
  | .unexpectedToken shown => s!"unexpected '{shown}'"
  | .unexpectedEnd => "unexpected end of input"
  | .unterminatedGroup closer => s!"unterminated group, expected '{closer}'"
  | .severalRegions count => s!"expected a single expression, found {count} regions"
  | .described message _ => message

/-- What may mend the fault. -/
def hint : SyntaxFault → Option String
  | .unterminatedComment => some "add closing */ to terminate the comment"
  | .unterminatedString quote => some s!"add closing {quote} to complete the string"
  | .unterminatedGroup closer => some s!"add '{closer}' to close the group opened here"
  | .severalRegions _ => some "pass one line at a time"
  | .described _ hint => hint
  | _ => none

end SyntaxFault

/-- What is wrong with a script. -/
inductive Complaint where
  /-- Something that is described from outside. -/
  | described (message : String) (hint : Option String)
  | badSyntax (fault : SyntaxFault)
  /-- A symbol stands for no operation. -/
  | unknownSymbol (spelling : String)
  /-- A symbol, or a label, stands where an operator finds no operand. -/
  | misplacedSymbol (spelling : String)
  /-- A compound assignment has nothing to assign. -/
  | missingValue (spelling : String)
  /-- A bare function name does not lead its list. -/
  | misplacedIdentifier (name : String)
  /-- A bracket or a brace holds more than one value. -/
  | crowdedGroup (group : String) (count : Int)
  /-- The report of a compilation that failed. -/
  | failedCompilation (report : String)
deriving DecidableEq

namespace Complaint

/-- A description of what is wrong. -/
def message : Complaint → String
  | .described message _ => message
  | .badSyntax fault => fault.message
  | .unknownSymbol spelling => s!"Unknown symbol ({spelling})"
  | .misplacedSymbol spelling =>
    s!"Unexpected symbol ({spelling}). Did you forget to quote your symbols?"
  | .missingValue _ => "Invalid symbol listed"
  | .misplacedIdentifier _ => "Unexpected identifier"
  | .crowdedGroup group count => s!"Unexpected children: {group} group holds {count} values"
  | .failedCompilation report => report

/-- What may mend it. -/
def hint : Complaint → Option String
  | .described _ hint => hint
  | .badSyntax fault => fault.hint
  | .unknownSymbol _ => none
  | .misplacedSymbol _ => some "quote the symbol if it is meant as text"
  | .missingValue spelling => some s!"'{spelling}' needs a value on its right"
  | .misplacedIdentifier name => some s!"'{name}' can only be called when it leads the expression"
  | .crowdedGroup _ _ => some "a bracket or brace group must reduce to a single value"
  | .failedCompilation _ => none

end Complaint

/-- A complaint, the place it is about, and the source line of that place. -/
structure Diagnostic where
  complaint : Complaint
  place : Option Location
  sourceLine : Option String
deriving DecidableEq

namespace Diagnostic

/-- The diagnostic without a source line. -/
def of (complaint : Complaint) (place : Location) : Diagnostic :=
  ⟨complaint, some place, none⟩

/-- The diagnostic with another source line. -/
def withSourceLine (d : Diagnostic) (line : String) : Diagnostic :=
  { d with sourceLine := some line }

/-- The source line behind four blanks, and a caret below the column if it is known. -/
def excerpt (line : String) (column : Int) : List String :=
  if 0 < column then
    ["    " ++ line, String.ofList (List.replicate (column.toNat + 3) ' ') ++ "^"]
  else ["    " ++ line]

/-- The lines of a diagnostic. -/
def shown (d : Diagnostic) : List String :=
  let headline :=
    match d.place with
    | some place => place.text ++ ": error: " ++ d.complaint.message
    | none => "error: " ++ d.complaint.message
  let source :=
    match d.sourceLine, d.place with
    | some line, some place => excerpt line place.column
    | _, _ => []
  let hint :=
    match d.complaint.hint with
    | some hint => if hint.isEmpty then [] else ["hint: " ++ hint]
    | none => []
  headline :: source ++ hint

/-- The text of a diagnostic. A report is shown as it is. -/
def message (d : Diagnostic) : String :=
  match d.complaint with
  | .failedCompilation report => report
  | _ => "\n".intercalate d.shown

end Diagnostic

end LineScript
