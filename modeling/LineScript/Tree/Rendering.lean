import LineScript.Failure

/-!
# Trees as text

`Tree.text` writes a tree on one line, calls with their children in parentheses. `Tree.outline`
writes one line for every node, children two blanks further in than their parent; the label of an
entry stands on the line of the entry. A tree that holds an integer with too many digits, or an
entry whose label has no name, has no text, which `Tree.render` and `Tree.printed` report.
-/

namespace LineScript

namespace Tree

/-- The function name that a join is shown with. -/
def joinName : JoinMode → String
  | .string => "sconcat"
  | .list => "concat"

mutual

/-- A tree on one line. -/
def text : Tree → String
  | .hole => ""
  | .symbol _ spelling _ => spelling
  | .label _ name => name ++ ":"
  | .identifier _ name => name
  | .literal _ value => value.render
  | .variable _ name => "@" ++ name
  | .void _ => "void"
  | .call _ name children => name ++ "(" ++ textList children ++ ")"
  | .entry _ l v => "centry(" ++ l.name ++ ", " ++ text v ++ ")"
  | .join _ mode children => joinName mode ++ "(" ++ textList children ++ ")"
  | .bracket _ content => "[" ++ text content ++ "]"
  | .brace _ content => "\x7b" ++ text content ++ "\x7d"

/-- Trees with a comma and a blank between them. -/
def textList : List Tree → String
  | [] => ""
  | [t] => text t
  | t :: ts => text t ++ ", " ++ textList ts

end

/-- A text behind two blanks for each level. -/
def indented (level : Nat) (text : String) : String :=
  String.ofList (List.replicate (2 * level) ' ') ++ text

mutual

/-- The lines of a tree at a level, one for every node. -/
def outline (level : Nat) : Tree → List String
  | .call _ name children => indented level name :: outlineList (level + 1) children
  | .entry _ l v =>
    indented level ("centry " ++ l.name ++ ":") :: outline (level + 1) v
  | .join _ mode children => indented level (joinName mode) :: outlineList (level + 1) children
  | .bracket _ content => indented level "[]" :: outline (level + 1) content
  | .brace _ content => indented level "\x7b\x7d" :: outline (level + 1) content
  | t => [indented level t.text]

/-- The lines of trees at a level, one tree after the other. -/
def outlineList (level : Nat) : List Tree → List String
  | [] => []
  | t :: ts => outline level t ++ outlineList level ts

end

mutual

/-- What keeps a tree from having a text; of several reasons the first one as it is written. -/
def textFault? : Tree → Option Failure
  | .literal _ value => if value.isTooLarge then some (.numeral .tooLarge) else none
  | .call _ _ children | .join _ _ children => textFaultList? children
  | .entry _ l v => if l.kind?.any Kind.isNamed then textFault? v else some (.nameless l.kind?)
  | .bracket _ content | .brace _ content => textFault? content
  | _ => none

/-- What keeps one of the trees from having a text. -/
def textFaultList? : List Tree → Option Failure
  | [] => none
  | t :: ts => (textFault? t).or (textFaultList? ts)

end

/-- A tree on one line. -/
def render (t : Tree) : Except Failure String :=
  match t.textFault? with
  | some failure => .error failure
  | none => .ok t.text

/-- A tree on one line for every node. -/
def printed (t : Tree) : Except Failure String :=
  match t.textFault? with
  | some failure => .error failure
  | none => .ok ("\n".intercalate (t.outline 0))

end Tree

end LineScript
