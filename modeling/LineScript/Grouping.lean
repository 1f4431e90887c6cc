import LineScript.Failure
import LineScript.Registry
import LineScript.Token
import LineScript.Tree

/-!
# Grouping tokens into regions

A script consists of regions, separated by the line feeds outside of all groups. Grouping finds
the regions and, within each, the groups between parentheses, brackets and braces, the argument
lists between their commas, and the labels; it knows nothing of how tightly operators bind. Every
list of siblings becomes a call of `Tree.listName` with its operands and symbols in the order they
are written.

A first look at the tokens joins a label with its colon and a function name with its parenthesis
(`Mark`). Then one mark after the other is put in its place, with a stack of the groups that are
open.
-/

namespace LineScript

namespace Grouping

/-! ### Marks -/

/-- A token, together with the one behind it where the two belong to each other. -/
inductive Mark where
  /-- A name and the colon behind it. -/
  | label (name : Token)
  /-- A function name and the parenthesis behind it. -/
  | call (name : Token)
  | single (token : Token)

/-- A colon behind such a token makes it a label. -/
def canLabel (kind : TokenKind) : Bool :=
  kind = .word || kind = .string || kind = .number

/-- The marks of a list of tokens. -/
def marks : List Token → List Mark
  | [] => []
  | [t] => [.single t]
  | t :: u :: ts =>
    if canLabel t.kind && u.kind = .colon then .label t :: marks ts
    else if t.kind = .word && u.kind = .leftParen then .call t :: marks ts
    else .single t :: marks (u :: ts)

/-! ### Groups -/

/-- The closing token of a group that a token opens, and the name of the call it becomes. -/
def opens? : TokenKind → Option (TokenKind × String)
  | .leftParen => some (.rightParen, Tree.parenName)
  | .leftBracket => some (.rightBracket, Tree.bracketName)
  | .leftBrace => some (.rightBrace, Tree.braceName)
  | _ => none

/-- The text of a closing token. -/
def closerText : TokenKind → String
  | .rightBracket => "]"
  | .rightBrace => "\x7d"
  | _ => ")"

/-- A group that is not closed yet. -/
structure OpenGroup where
  /-- The token that opened it; for a call, the function name. -/
  opener : Token
  name : String
  closer : TokenKind
  /-- The argument lists before the current one, the last of them first. -/
  done : List Tree
  /-- The place of the first token behind the opener or the last comma. -/
  start : Option Location
  /-- The siblings before the group, the last of them first. -/
  outer : List Tree

/-- How far grouping has come. -/
structure Progress where
  /-- The regions that are complete, the last one first. -/
  regions : List Tree
  /-- The open groups, the innermost first. -/
  groups : List OpenGroup
  /-- The siblings of the current list, the last of them first. -/
  siblings : List Tree

/-- What grouping knows beside the tokens. -/
structure Source where
  /-- The lines that a diagnostic may show. -/
  lines : List String
  /-- Decides which bare words are function names. -/
  registry : Registry

/-! ### Siblings -/

/-- The call that holds siblings, which are given last first. Without siblings it is placed at
`start`. -/
def listOf (start : Location) (siblings : List Tree) : Tree :=
  let place :=
    match siblings.getLast? with
    | some first => first.place
    | none => start
  .call place Tree.listName siblings.reverse

/-- Nothing, or a label alone, comes before. -/
def leads : List Tree → Bool
  | [] => true
  | [t] => t.isLabel
  | _ => false

/-- The fixity of a symbol behind siblings. -/
def fixity (spelling : String) (siblings : List Tree) : Fixity :=
  if Operator.isStep spelling then
    match siblings with
    | t :: _ => if t.isOperand then .after else .before
    | [] => .before
  else if spelling = "!" then .before
  else .between

/-- The tree of a token that is an operand or a symbol by itself. -/
def atom (registry : Registry) (siblings : List Tree) (t : Token) : Tree :=
  match t.kind with
  | .word =>
    if leads siblings && registry.isCallable t.name then .identifier t.place t.name
    else .literal t.place t.value
  | .symbol => .symbol t.place t.name (fixity t.name siblings)
  | .variable => .variable t.place t.name
  | .trueWord => .literal t.place (.bool true)
  | .falseWord => .literal t.place (.bool false)
  | .nullWord => .literal t.place .null
  | _ => .literal t.place t.value

namespace Progress

/-- Nothing read. -/
def start : Progress := ⟨[], [], []⟩

/-- Remember the place of the first token of an argument list. -/
def touch (p : Progress) (place : Location) : Progress :=
  match p.groups with
  | [] => p
  | g :: gs => { p with groups := { g with start := g.start.or (some place) } :: gs }

/-- Another sibling. -/
def push (p : Progress) (t : Tree) : Progress :=
  { p.touch t.place with siblings := t :: p.siblings }

/-- The end of a region, unless nothing was read since the last one. -/
def endRegion (p : Progress) : Progress :=
  match p.siblings with
  | [] => p
  | t :: ts => { p with regions := listOf t.place (t :: ts) :: p.regions, siblings := [] }

/-- The beginning of a group. -/
def openGroup (p : Progress) (opener : Token) (name : String) (closer : TokenKind) : Progress :=
  let q := p.touch opener.place
  { q with groups := ⟨opener, name, closer, [], none, p.siblings⟩ :: q.groups, siblings := [] }

/-- The end of an argument list at a comma, if a group is open. -/
def separate? (p : Progress) (comma : Token) : Option Progress :=
  match p.groups with
  | [] => none
  | g :: gs =>
    let list := listOf (g.start.getD comma.place) p.siblings
    some { p with groups := { g with done := list :: g.done, start := none } :: gs, siblings := [] }

/-- The end of the innermost group, if the token closes it. A group that is closed where it was
opened has no argument list. -/
def close? (p : Progress) (closer : Token) : Option Progress :=
  match p.groups with
  | [] => none
  | g :: gs =>
    if g.closer = closer.kind then
      let isEmpty := g.done.isEmpty && g.start.isNone
      let list := listOf (g.start.getD closer.place) p.siblings
      let children := if isEmpty then [] else (list :: g.done).reverse
      some ⟨p.regions, gs, .call g.opener.place g.name children :: g.outer⟩
    else none

end Progress

/-! ### One mark after the other -/

namespace Source

/-- A complaint that shows the line of its place. -/
def complain {α : Type} (s : Source) (fault : SyntaxFault) (place : Location) : Except Failure α :=
  .error (.diagnostic ⟨.badSyntax fault, some place, Text.line? s.lines place.line⟩)

/-- The plain text of a value. -/
def plain (v : Value) : Except Failure String :=
  v.plain?.mapError .numeral

/-- A token stands where it must not. -/
def unexpected {α : Type} (s : Source) (t : Token) : Except Failure α := do
  s.complain (.unexpectedToken (← plain t.value)) t.place

/-- The end of all regions at the token that ends the script. -/
def finish (s : Source) (p : Progress) : Except Failure (List Tree) :=
  match p.groups with
  | [] => .ok p.endRegion.regions.reverse
  | g :: _ => s.complain (.unterminatedGroup (closerText g.closer)) g.opener.place

/-- Put a token in its place. -/
def place (s : Source) (p : Progress) (t : Token) : Except Failure Progress :=
  match t.kind with
  | .newline => .ok (if p.groups.isEmpty then p.endRegion else p.touch t.place)
  | .comma =>
    match p.separate? t with
    | some q => .ok q
    | none => s.unexpected t
  | .rightParen | .rightBracket | .rightBrace =>
    match p.close? t with
    | some q => .ok q
    | none => s.unexpected t
  | .colon | .eof => s.unexpected t
  | kind =>
    match opens? kind with
    | some (closer, name) => .ok (p.openGroup t name closer)
    | none => .ok (p.push (atom s.registry p.siblings t))

/-- Put a mark in its place. -/
def placeMark (s : Source) (p : Progress) : Mark → Except Failure Progress
  | .label t => do return p.push (.label t.place (← plain t.value))
  | .call t => .ok (p.openGroup t t.name .rightParen)
  | .single t => s.place p t

/-- Put marks in their places up to the one that ends the script. -/
def run (s : Source) (p : Progress) : List Mark → Except Failure (List Tree)
  | [] => s.complain .unexpectedEnd .unknown
  | .single t :: ms => if t.kind = .eof then s.finish p else do s.run (← s.place p t) ms
  | m :: ms => do s.run (← s.placeMark p m) ms

/-- The regions of a list of tokens, which ends with the token that marks the end of a script.
Where another token comes last, it is met again and again until it is refused. -/
def regions (s : Source) (tokens : List Token) : Except Failure (List Tree) :=
  match tokens.getLast? with
  | none => .ok []
  | some last =>
    let again := if last.kind = .eof then [] else List.replicate (tokens.length + 1) (.single last)
    s.run .start (marks tokens ++ again)

end Source

end Grouping

end LineScript
