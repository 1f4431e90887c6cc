import LineScript.Tree

/-!
# Gathering parts of a tree
-/

namespace LineScript

namespace Tree

mutual

/-- The parts of a tree of the wanted kinds in the order they are written, without the parts of
those parts. The label of an entry comes before its value. -/
def gather (wanted : Kind → Bool) (t : Tree) : List Tree :=
  if t.kind?.any wanted then [t]
  else
    match t with
    | .call _ _ children | .join _ _ children => gatherList wanted children
    | .entry _ l v => gather wanted l ++ gather wanted v
    | .bracket _ content | .brace _ content => gather wanted content
    | _ => []

/-- The parts of trees of the wanted kinds, one tree after the other. -/
def gatherList (wanted : Kind → Bool) : List Tree → List Tree
  | [] => []
  | t :: ts => gather wanted t ++ gatherList wanted ts

end

end Tree

end LineScript
