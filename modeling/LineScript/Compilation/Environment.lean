import LineScript.Compilation
import LineScript.Text.LowerCase

/-!
# Options from the environment

Three variables set options. An empty one counts as not set. What cannot be understood is ignored
with a warning.
-/

namespace LineScript

/-- The variables that set options. -/
structure Environment where
  concatMode : Option String
  optimize : Option String
  maxErrors : Option String

namespace Environment

/-- The name of the variable that says how leftover operands are joined. -/
def concatModeName : String := "MSCRIPT_CONCAT_MODE"

/-- The name of the variable that says whether trees are finished. -/
def optimizeName : String := "MSCRIPT_OPTIMIZE"

/-- The name of the variable that limits the number of diagnostics. -/
def maxErrorsName : String := "MSCRIPT_MAX_ERRORS"

/-- The variables that have a value among all variables. -/
def ofLookup (get : String → Option String) : Environment :=
  ⟨get concatModeName, get optimizeName, get maxErrorsName⟩

/-- A variable whose value is ignored. -/
inductive Warning where
  /-- No mode has this name. -/
  | unknownMode (mode : String)
  /-- The limit is no integer. -/
  | badLimit (value : String)
deriving DecidableEq

/-- The text of a warning. -/
def Warning.text : Warning → String
  | .unknownMode mode => s!"Ignoring unknown {concatModeName} '{mode}'"
  | .badLimit value => s!"Ignoring non-numeric {maxErrorsName} '{value}'"

/-- The value of a variable that is set to something. -/
def present (value : Option String) : Option String :=
  value.filter (!·.isEmpty)

/-- A value as it is compared: without blanks at its ends and in lower case. -/
def normal (value : String) : String :=
  String.ofList (Text.lower (Text.trimmed Text.isTrimmed value.toList))

/-- The mode of joining. -/
def mode (e : Environment) : JoinMode × List Warning :=
  match (present e.concatMode).map normal with
  | none => (.string, [])
  | some name =>
    if name = "list" then (.list, [])
    else if name = "string" then (.string, [])
    else (.string, [.unknownMode name])

/-- Values that say no. -/
def denials : List String := ["0", "false", "no", "off"]

/-- Whether trees are finished. -/
def finish (e : Environment) : Bool :=
  match (present e.optimize).map normal with
  | none => true
  | some value => !denials.contains value

/-- The limit for diagnostics, at least one. -/
def limit (e : Environment) : Int × List Warning :=
  match present e.maxErrors with
  | none => (100, [])
  | some value =>
    match Numeral.integer? value.toList with
    | some n => (max 1 n, [])
    | none => (100, [.badLimit value])

/-- The options that the variables set, and warnings in the order of the variables. -/
def options (e : Environment) : Options × List Warning :=
  let (mode, modeWarnings) := e.mode
  let (maxErrors, limitWarnings) := e.limit
  ({ mode, finish := e.finish, maxErrors }, modeWarnings ++ limitWarnings)

end Environment

end LineScript
