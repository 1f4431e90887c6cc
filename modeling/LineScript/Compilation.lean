import LineScript.Diagnostic.Collector
import LineScript.Finishing
import LineScript.Grouping
import LineScript.Registry.Builtin
import LineScript.Stored
import LineScript.Token.Lexer

/-!
# Compilation

A source is read into tokens, grouped into regions, and every region is finished by itself, so
that one run reports what is wrong with each of them. What is wrong with the tokens or their
grouping leaves no regions and is reported alone. A compiler can be used for one source after the
other; it keeps the collector of the last one.
-/

namespace LineScript

/-- How to compile. -/
structure Options where
  mode : JoinMode := .string
  /-- Finish the trees of groups; otherwise they are kept. -/
  finish : Bool := true
  /-- Stop after so many diagnostics. -/
  maxErrors : Int := 100
  /-- The functions of scripts, if not the built-in ones. -/
  registry : Option Registry := none

namespace Options

/-- The registry in use. -/
def functions (o : Options) : Registry := o.registry.getD .builtin

/-- What decides how lists are settled. -/
def dialect (o : Options) : Dialect := ⟨o.functions, o.mode⟩

end Options

/-- The result of a compilation. -/
structure Compiled where
  file : String
  /-- One tree for every region, in order. -/
  trees : List Tree
  tokenCount : Nat
  regionCount : Nat
  tally : Tally
  warnings : List String

/-- A compiler with the collector of the source it compiled last. -/
structure Compiler where
  options : Options
  collector : Collector

namespace Compiler

/-- A compiler that has compiled nothing. -/
def new (options : Options) : Compiler := ⟨options, .new options.maxErrors⟩

/-- The number of tokens of a source, and its regions before they are finished. -/
def regionsOf (options : Options) (source file : String) : Except Failure (Nat × List Tree) := do
  let tokens ← tokens source file
  let regions ← Grouping.Source.regions ⟨Text.lines source, options.functions⟩ tokens
  return (tokens.length, regions)

/-- Finish regions one after the other. A diagnostic is collected in place of a tree, until the
collector asks for a stop. -/
def finishRegions (d : Dialect) : Collector → List Tree → Collector × Traced (List Tree)
  | c, [] => (c, pure [])
  | c, region :: regions =>
    let finished := region.finish d
    match finished.result with
    | .ok tree =>
      let (c, others) := finishRegions d c regions
      (c, ⟨finished.steps ++ others.steps, others.result.map (tree :: ·)⟩)
    | .error (.diagnostic e) =>
      match c.add e with
      | (c, true) =>
        let (c, others) := finishRegions d c regions
        (c, ⟨finished.steps ++ others.steps, others.result⟩)
      | (c, false) => (c, ⟨finished.steps, .ok []⟩)
    | .error failure => (c, ⟨finished.steps, .error failure⟩)

/-- The trees of the regions, finished if the options say so. -/
def treesOf (options : Options) (c : Collector) (regions : List Tree) :
    Collector × Traced (List Tree) :=
  if options.finish then finishRegions options.dialect c regions else (c, pure regions)

/-- The end of a compilation: a failure if anything was collected. -/
def conclude (c : Collector) (file : String) (tokenCount regionCount : Nat)
    (trees : Traced (List Tree)) : Traced Compiled := do
  let finished ← trees
  Traced.step (.compiled file regionCount c.collected.length)
  Traced.lift c.verdict
  return ⟨file, finished, tokenCount, regionCount, .ofSteps trees.steps, c.warnings⟩

/-- Compile a source. -/
def compile (compiler : Compiler) (source file : String) : Compiler × Traced Compiled :=
  let options := compiler.options
  let collector := compiler.collector.start (Text.lines source)
  match regionsOf options source file with
  | .error (.diagnostic d) =>
    let collector := (collector.add d).1
    (⟨options, collector⟩, conclude collector file 0 0 (pure []))
  | .error failure => (⟨options, collector⟩, .fail failure)
  | .ok (tokenCount, regions) =>
    let (collector, trees) := treesOf options collector regions
    (⟨options, collector⟩, do
      Traced.step (.grouped regions.length file)
      conclude collector file tokenCount regions.length trees)

/-- Compile a text of a single expression and give its tree; an empty text has the empty value. -/
def expression (compiler : Compiler) (text file : String) : Compiler × Traced Tree :=
  let (compiler, compiled) := compiler.compile text file
  match compiled.result with
  | .error failure => (compiler, ⟨compiled.steps, .error failure⟩)
  | .ok result =>
    match result.trees with
    | [] => (compiler, ⟨compiled.steps, .ok (.void .unknown)⟩)
    | [tree] => (compiler, ⟨compiled.steps, .ok tree⟩)
    | tree :: second :: trees =>
      let fault := .severalRegions (trees.length + 2)
      let collector := (compiler.collector.add (.of (.badSyntax fault) second.place)).1
      (⟨compiler.options, collector⟩, ⟨compiled.steps, collector.verdict.map fun _ => tree⟩)

/-! ### Sessions -/

/-- What a compiler is asked for. -/
inductive Request where
  | compile (source file : String)
  | expression (text file : String)

/-- What it answers. -/
inductive Answer where
  | compiled (result : Compiled)
  | tree (tree : Tree)

/-- Answer one request. -/
def answer (compiler : Compiler) : Request → Compiler × Except Failure Answer
  | .compile source file =>
    let (compiler, compiled) := compiler.compile source file
    (compiler, compiled.result.map .compiled)
  | .expression text file =>
    let (compiler, tree) := compiler.expression text file
    (compiler, tree.result.map .tree)

/-- Answer requests one after the other. -/
def answers (compiler : Compiler) : List Request → List (Except Failure Answer)
  | [] => []
  | request :: requests =>
    let (compiler, answer) := compiler.answer request
    answer :: compiler.answers requests

end Compiler

/-! ### Files -/

/-- Compile the file at a path; what is stored there is given, if anything is. -/
def Compiler.compileFile (compiler : Compiler) (path : String) (stored : Option Stored) :
    Compiler × Traced Compiled :=
  match stored with
  | none => (compiler, .fail (.missingSource path))
  | some stored =>
    match stored.text path with
    | .ok source => compiler.compile source path
    | .error failure => (compiler, .fail failure)

end LineScript
