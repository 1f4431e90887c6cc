import LineScript.Text.Quoted

/-!
# Arguments of the command

Options and the name of a file may come in any order. Two hyphens end the options, one hyphen
begins a run of short ones, and the value of an option is the rest of its argument or, if there is
none, the next argument whatever it looks like. Of several values the last one counts.
-/

namespace LineScript

namespace CommandLine

/-- What the command is asked to do. -/
structure Invocation where
  file : Option String := none
  expression : Option String := none
  /-- List the tokens only. -/
  tokens : Bool := false
  /-- Show the trees of groups. -/
  raw : Bool := false
  /-- Join leftover operands as lists. -/
  listConcat : Bool := false
  /-- Show one line for every node. -/
  tree : Bool := false
  verbose : Bool := false
  /-- Show the version only. -/
  version : Bool := false
  /-- Show how the command is used only. -/
  help : Bool := false
  /-- Arguments behind the name of the file. -/
  extra : List String := []

/-- Why the command cannot be carried out as it was given. -/
inductive UsageFault where
  | noSuchOption (option : String)
  | missingValue (option : String)
  | unwantedValue (option : String)
  | extraArguments (arguments : List String)
  | missingFile (name : String)
  | directory (name : String)
  /-- A file and an expression, or neither of them. -/
  | ambiguousInput

/-- A description of the fault. -/
def UsageFault.message : UsageFault → String
  | .noSuchOption option => s!"No such option: {option}"
  | .missingValue option => s!"Option '{option}' requires an argument."
  | .unwantedValue option => s!"Option '{option}' does not take a value."
  | .extraArguments arguments =>
    let noun := if arguments.length = 1 then "argument" else "arguments"
    let shown := " ".intercalate arguments
    s!"Got unexpected extra {noun} ({shown})"
  | .missingFile name =>
    let shown := Text.quoted name
    s!"Invalid value for '[INPUT_FILE]': File {shown} does not exist."
  | .directory name =>
    let shown := Text.quoted name
    s!"Invalid value for '[INPUT_FILE]': File {shown} is a directory."
  | .ambiguousInput => "provide either INPUT_FILE or -e EXPRESSION"

/-- How the command is used, in front of a fault. -/
def usage : List String :=
  ["Usage: msc [OPTIONS] [INPUT_FILE]", "Try 'msc --help' for help.", ""]

/-- Set the flag that a long name stands for. -/
def setFlag? (i : Invocation) : String → Option Invocation
  | "--tokens" => some { i with tokens := true }
  | "--raw" => some { i with raw := true }
  | "--list-concat" => some { i with listConcat := true }
  | "--tree" => some { i with tree := true }
  | "--verbose" => some { i with verbose := true }
  | "--version" => some { i with version := true }
  | "--help" => some { i with help := true }
  | _ => none

/-- Arguments that have been read. -/
structure Reading where
  invocation : Invocation
  /-- An option whose value is the next argument. -/
  awaiting : Option String
  /-- No further argument is an option. -/
  optionsEnded : Bool

namespace Reading

/-- The expression is given. -/
def setExpression (r : Reading) (value : String) : Reading :=
  { r with invocation := { r.invocation with expression := some value }, awaiting := none }

/-- An argument that is no option. -/
def operand (r : Reading) (argument : String) : Reading :=
  let i := r.invocation
  match i.file with
  | none => { r with invocation := { i with file := some argument } }
  | some _ => { r with invocation := { i with extra := i.extra ++ [argument] } }

/-- An option with a long name, and its value if there is one. -/
def long (r : Reading) (name : String) (value : Option String) : Except UsageFault Reading :=
  if name = "--expression" then
    match value with
    | some text => .ok (r.setExpression text)
    | none => .ok { r with awaiting := some name }
  else
    match setFlag? r.invocation name, value with
    | some i, none => .ok { r with invocation := i }
    | some _, some _ => .error (.unwantedValue name)
    | none, _ => .error (.noSuchOption name)

/-- A run of short options. -/
def short (r : Reading) : List Char → Except UsageFault Reading
  | [] => .ok r
  | 'e' :: [] => .ok { r with awaiting := some "-e" }
  | 'e' :: value => .ok (r.setExpression (String.ofList value))
  | 'v' :: options =>
    short { r with invocation := { r.invocation with verbose := true } } options
  | c :: _ => .error (.noSuchOption (String.ofList ['-', c]))

/-- Another argument. -/
def argument (r : Reading) (argument : String) : Except UsageFault Reading :=
  if r.awaiting.isSome then .ok (r.setExpression argument)
  else if r.optionsEnded then .ok (r.operand argument)
  else
    match argument.toList with
    | ['-', '-'] => .ok { r with optionsEnded := true }
    | '-' :: '-' :: option =>
      let name := String.ofList ('-' :: '-' :: option.takeWhile (· ≠ '='))
      match option.dropWhile (· ≠ '=') with
      | [] => r.long name none
      | _ :: value => r.long name (String.ofList value)
    | '-' :: c :: options => r.short (c :: options)
    | _ => .ok (r.operand argument)

end Reading

/-- What a list of arguments asks for. -/
def readArguments (arguments : List String) : Except UsageFault Invocation := do
  let r ← arguments.foldlM Reading.argument ⟨{}, none, false⟩
  match r.awaiting with
  | some option => .error (.missingValue option)
  | none => .ok r.invocation

end CommandLine

end LineScript
