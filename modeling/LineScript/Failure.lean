import LineScript.Decimal.Numeral
import LineScript.Diagnostic
import LineScript.Registry
import LineScript.Text.Utf8

/-!
# Failures

Everything that can keep the compiler from an answer. Only a diagnostic is a statement about one
place of a script, and only diagnostics are collected into a report; the other failures end a run
at once.
-/

namespace LineScript

/-- Where a failure that did not begin in the compiler comes from. -/
inductive Origin where
  /-- A tool that belongs to the compiler. -/
  | toolchain
  /-- The files and options a command was given. -/
  | invocation
  /-- Anything else. -/
  | unforeseen
deriving DecidableEq

/-- Why there is no answer. -/
inductive Failure where
  | diagnostic (d : Diagnostic)
  /-- A compilation collected diagnostics. -/
  | rejected (report : String) (diagnostics : List Diagnostic)
  /-- A bare name leads a list and no function has it. -/
  | unresolvedCall (name : String) (place : Option Location)
  /-- The compiler contradicts itself. -/
  | brokenInvariant (message : String) (place : Option Location)
  | registry (fault : Registry.Fault)
  | numeral (fault : Numeral.Fault)
  | undecodable (fault : Text.Utf8.Fault)
  | missingSource (path : String)
  | directorySource (path : String)
  /-- A tree is missing where one is needed. -/
  | hole
  /-- The label of an entry is no tree with a name, but one of this kind, or missing. -/
  | nameless (kind : Option Tree.Kind)
  | outside (origin : Origin) (message : String)

namespace Failure

/-- A message about the compiler itself. -/
def internalMessage (message : String) (place : Option Location) : String :=
  match place with
  | some place => place.text ++ ": internal error: " ++ message
  | none => "internal error: " ++ message

/-- A description of the failure. -/
def message : Failure → String
  | .diagnostic d => d.message
  | .rejected report _ => report
  | .unresolvedCall name place => internalMessage ("Unknown function " ++ name) place
  | .brokenInvariant message place => internalMessage message place
  | .registry fault => fault.message
  | .numeral fault => fault.message
  | .undecodable fault => fault.message
  | .missingSource path => "Source file not found: " ++ path
  | .directorySource path => "[Errno 21] Is a directory: " ++ Text.quoted path
  | .hole => "a tree is missing"
  | .nameless _ => "a label has no name"
  | .outside _ message => message

/-- A complaint about a place. -/
def complain {α : Type} (complaint : Complaint) (place : Location) : Except Failure α :=
  .error (.diagnostic (.of complaint place))

end Failure

end LineScript
