import LineScript.CommandLine
import LineScript.CommandLine.Arguments
import LineScript.Compilation
import LineScript.Compilation.Environment
import LineScript.Decimal.Binary64
import LineScript.Decimal.Numeral
import LineScript.Decimal.Shortest
import LineScript.Diagnostic
import LineScript.Diagnostic.Collector
import LineScript.Failure
import LineScript.Finishing
import LineScript.Grouping
import LineScript.Location
import LineScript.Main
import LineScript.Operator
import LineScript.Reduction
import LineScript.Registry
import LineScript.Registry.Builtin
import LineScript.Stored
import LineScript.Tally
import LineScript.Text.Blank
import LineScript.Text.CaseTable
import LineScript.Text.CodeRanges
import LineScript.Text.ControlSequence
import LineScript.Text.Digit
import LineScript.Text.Lines
import LineScript.Text.LowerCase
import LineScript.Text.Printable
import LineScript.Text.Quoted
import LineScript.Text.Utf8
import LineScript.Token
import LineScript.Token.Lexeme
import LineScript.Token.Lexer
import LineScript.Trace
import LineScript.Tree
import LineScript.Tree.Gathering
import LineScript.Tree.Likeness
import LineScript.Tree.Rendering
import LineScript.Value
import LineScript.Proofs.Operator
import LineScript.Proofs.Reduction.Grammar
import LineScript.Proofs.Reduction.Chain
import LineScript.Proofs.Reduction.Sweep
import LineScript.Proofs.Reduction.Unit
import LineScript.Proofs.Reduction.Completeness
import LineScript.Proofs.Reduction.Soundness
import LineScript.Proofs.Reduction.Precedence
import LineScript.Proofs.Token.Spelling
import LineScript.Proofs.Token.Vocabulary
import LineScript.Proofs.Expression
import LineScript.Proofs.Grouping.Run
import LineScript.Proofs.Tree.Unplaced
import LineScript.Proofs.Expression.Compiled
import LineScript.Proofs.Grouping.Acceptance
import LineScript.Proofs.Grouping.Reading
import LineScript.Proofs.Tree.Parts
import LineScript.Proofs.Reduction.Rewriting
import LineScript.Proofs.Finishing.Cases
import LineScript.Proofs.Grouping.Region
import LineScript.Proofs.Finishing.Closed
import LineScript.Proofs.Finishing.Complaints
import LineScript.Proofs.Compilation.Regions
import LineScript.Proofs.Compilation.Joining
import LineScript.Proofs.Grouping.Context
import LineScript.Proofs.Grouping.Relocation
import LineScript.Proofs.Finishing.Leaves
import LineScript.Proofs.Finishing.NormalForm
import LineScript.Proofs.Token.Lookahead
import LineScript.Proofs.Token.Joining
import LineScript.Proofs.Tree.Relocation
import LineScript.Proofs.Reduction.Relocation
import LineScript.Proofs.Finishing.Relocation
import LineScript.Proofs.Token.Reading
import LineScript.Proofs.Grouping.Composition
import LineScript.Proofs.Finishing.Composition
import LineScript.Proofs.Reduction.InPlace
import LineScript.Proofs.Finishing.InPlace
import LineScript.Proofs.Compilation.Session
import LineScript.Proofs.Compilation.Limit
import LineScript.Proofs.Compilation.Modes
import LineScript.Proofs.Compilation.Naming
import LineScript.Proofs.Compilation.Rendering
import LineScript.Proofs.Decimal.Numeral
import LineScript.Proofs.Token.Numeral
import LineScript.Proofs.Token.Wording
import LineScript.Proofs.Token.Writing
import LineScript.Proofs.Token.Tiling
import LineScript.Proofs.Grouping.Labels
import LineScript.Proofs.Compilation.Outcome
import LineScript.Proofs.Reduction.Leaders
import LineScript.Proofs.Finishing.Operands
import LineScript.Proofs.Text.Lines
import LineScript.Proofs.Compilation.Labels
import LineScript.Proofs.Compilation.SourceLines
import LineScript.Proofs.Reduction.Leading
import LineScript.Proofs.Grouping.Entry
import LineScript.Proofs.Finishing.Entry
import LineScript.Proofs.Grouping.Torn
import LineScript.Proofs.Grouping.Weight
import LineScript.Proofs.Grouping.InnerLines
import LineScript.Proofs.Grouping.InPlace
import LineScript.Proofs.Grouping.RunFrom
import LineScript.Proofs.Grouping.Turns
import LineScript.Proofs.Finishing.Failures
import LineScript.Proofs.Reduction.Runs
import LineScript.Proofs.Reduction.Dangling
import LineScript.Proofs.Finishing.Blame
import LineScript.Proofs.Token.Layout
import LineScript.Proofs.Compilation.Layout
import LineScript.Proofs.Token.Faults
import LineScript.Proofs.Compilation.LineFeeds
import LineScript.Proofs.Finishing.Counting
import LineScript.Proofs.Grouping.Counting
import LineScript.Proofs.Compilation.Tally
import LineScript.Proofs.Text.LineFeeds
import LineScript.Proofs.Tree.Printing
import LineScript.Proofs.Compilation.Printing
import LineScript.Proofs.Reduction.Turns
import LineScript.Proofs.Reduction.Fixpoint
import LineScript.Proofs.Registry
import LineScript.Proofs.Diagnostic.Collector
import LineScript.Proofs.CommandLine
