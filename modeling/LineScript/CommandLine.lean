import LineScript.CommandLine.Arguments
import LineScript.Compilation.Environment
import LineScript.Text.ControlSequence
import LineScript.Tree.Rendering

/-!
# The command

The command compiles a file or an expression and shows its trees, one after the other, or lists
its tokens. Everything it does is a function of its arguments, the environment and the files: what
it writes, and the code it exits with. What it shows is free of control sequences; only the lines
of its log are written as they are.
-/

namespace LineScript

namespace CommandLine

/-- What a run of the command writes, line by line, and its exit code. -/
structure Output where
  exitCode : Nat
  stdout : List String
  stderr : List String

/-- Texts as the command shows them. -/
def shown (lines : List String) : List String :=
  lines.map Text.withoutControls

/-- Lines as they are written. -/
def written (lines : List String) : String :=
  String.join (lines.map (· ++ "\n"))

/-- The exit code of a success. -/
def success : Nat := 0

/-- The exit code when a script does not compile. -/
def compileError : Nat := 1

/-- The exit code when arguments or files cannot be used. -/
def invalidArguments : Nat := 2

/-- The exit code when the compiler itself fails. -/
def internalError : Nat := 3

/-! ### Failures -/

/-- What a trace shows of a failure that was not raised. -/
def emptyTrace : String := "NoneType: None"

/-- The lines about a failure, and the exit code. A failure of the compiler itself comes with a
trace if details are wanted. -/
def reportFailure (verbose : Bool) (failure : Failure) : List String × Nat :=
  let trace := if verbose then [emptyTrace] else []
  match failure with
  | .diagnostic _ | .rejected .. => ([failure.message], compileError)
  | .unresolvedCall .. | .brokenInvariant .. => (failure.message :: trace, internalError)
  | .registry _ | .outside .toolchain _ => (["Error: " ++ failure.message], compileError)
  | .missingSource _ | .outside .invocation _ => (["Error: " ++ failure.message], invalidArguments)
  | .undecodable fault =>
    let reason := fault.reason
    let start := fault.start
    ([s!"Error: input is not valid UTF-8 ({reason} at byte {start})"], invalidArguments)
  | .directorySource _ | .hole | .nameless _ | .numeral _ | .outside .unforeseen _ =>
    (("Internal error: " ++ failure.message) :: trace, internalError)

/-- The output of a run that ends in a failure after it has written something. -/
def failed (verbose : Bool) (stdout stderr : List String) (failure : Failure) : Output :=
  let (lines, exitCode) := reportFailure verbose failure
  ⟨exitCode, stdout, stderr ++ shown lines⟩

/-- The output of a run that was not asked for properly. -/
def misused (fault : UsageFault) : Output :=
  ⟨invalidArguments, [], shown (usage ++ ["Error: " ++ fault.message])⟩

/-! ### Results -/

/-- The texts of things, up to the first that has none. -/
def texts {α : Type} (text : α → Except Failure String) :
    List α → List String × Option Failure
  | [] => ([], none)
  | a :: as =>
    match text a with
    | .error failure => ([], some failure)
    | .ok line =>
      let (lines, failure) := texts text as
      (line :: lines, failure)

/-- The log of a compilation. -/
def log (steps : List Step) : List String :=
  (steps.filterMap Step.text?).map ("DEBUG: " ++ ·)

/-- List the tokens of a source. -/
def listTokens (i : Invocation) (stderr : List String) (source file : String) : Output :=
  let lexed := Lexed.ofSource source file 1
  let (lines, failure) := texts Token.listing? lexed.tokens
  match failure.or lexed.failure with
  | some failure => failed i.verbose (shown lines) stderr failure
  | none => ⟨success, shown lines, stderr⟩

/-- What is told about a compilation on request. -/
def summary (options : Options) (result : Compiled) : List String :=
  let tokens := s!"Tokenized: {result.tokenCount} tokens"
  let regions := s!"Parsed: {result.regionCount} regions"
  [tokens, regions] ++ (if options.finish then [result.tally.text] else [])

/-- Show the trees of a source. -/
def showTrees (i : Invocation) (options : Options) (stderr : List String) (source file : String) :
    Output :=
  let compiled := ((Compiler.new options).compile source file).2
  let stderr := stderr ++ (if i.verbose then log compiled.steps else [])
  match compiled.result with
  | .error failure => failed i.verbose [] stderr failure
  | .ok result =>
    let (lines, failure) := texts (if i.tree then Tree.printed else Tree.render) result.trees
    match failure with
    | some failure => failed i.verbose (shown lines) stderr failure
    | none =>
      let told := if i.verbose then summary options result else []
      ⟨success, shown lines, stderr ++ shown (told ++ result.warnings)⟩

/-- The warnings about the environment. -/
def environmentWarnings (i : Invocation) (warnings : List Environment.Warning) : List String :=
  warnings.map fun w => if i.verbose then "WARNING: " ++ w.text else w.text

/-- The options of a run. -/
def runOptions (i : Invocation) (options : Options) : Options :=
  { options with
    mode := if i.listConcat then .list else options.mode
    finish := options.finish && !i.raw }

/-- Work on a source, or report why there is none. -/
def process (i : Invocation) (environment : Environment) (file : String)
    (source : Except Failure String) : Output :=
  let (options, warnings) := environment.options
  let stderr := environmentWarnings i warnings
  match source with
  | .error failure => failed i.verbose [] stderr failure
  | .ok source =>
    let stderr := stderr ++ (if i.verbose then shown [s!"Compiling {file}..."] else [])
    if i.tokens then listTokens i stderr source file
    else showTrees i (runOptions i options) stderr source file

/-- The name that an expression goes by. -/
def expressionName : String := "<expr>"

/-- Carry out what was asked for. `files` gives what is stored at a path. -/
def carryOut (files : String → Option Stored) (environment : Environment)
    (i : Invocation) : Output :=
  let stored := i.file.map fun name => (name, files name)
  match stored, i.extra, i.expression with
  | some (name, none), _, _ => misused (.missingFile name)
  | some (name, some .directory), _, _ => misused (.directory name)
  | _, argument :: arguments, _ => misused (.extraArguments (argument :: arguments))
  | some (name, some (.file octets)), [], none =>
    process i environment (Stored.shownPath name) (Stored.fileText octets)
  | none, [], some text => process i environment expressionName (.ok text)
  | _, _, _ => misused .ambiguousInput

/-- A run of the command. -/
def run (files : String → Option Stored) (environment : Environment)
    (arguments : List String) : Output :=
  match readArguments arguments with
  | .error fault => misused fault
  | .ok i =>
    if i.version then ⟨success, ["msc, version 1.0.0"], []⟩
    else if i.help then ⟨success, usage.take 1, []⟩
    else carryOut files environment i

end CommandLine

end LineScript
