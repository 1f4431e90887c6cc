import LineScript.Tree
import Mathlib.Tactic.Common

/-!
# Trees without their places

Two trees that are the same but for their places have the same unplaced tree.
-/

namespace LineScript

namespace Tree

mutual

/-- The tree with every place forgotten. -/
def unplaced : Tree → Tree
  | .hole => .hole
  | .symbol _ s f => .symbol .unknown s f
  | .label _ n => .label .unknown n
  | .identifier _ n => .identifier .unknown n
  | .literal _ v => .literal .unknown v
  | .variable _ n => .variable .unknown n
  | .void _ => .void .unknown
  | .call _ n ts => .call .unknown n (unplacedList ts)
  | .entry _ l v => .entry .unknown (unplaced l) (unplaced v)
  | .join _ m ts => .join .unknown m (unplacedList ts)
  | .bracket _ t => .bracket .unknown (unplaced t)
  | .brace _ t => .brace .unknown (unplaced t)

/-- The trees with every place forgotten. -/
def unplacedList : List Tree → List Tree
  | [] => []
  | t :: ts => unplaced t :: unplacedList ts

end

lemma unplacedList_eq_map (ts : List Tree) : unplacedList ts = ts.map unplaced := by
  induction ts with
  | nil => rfl
  | cons t ts ih => rw [unplacedList, ih, List.map_cons]

end Tree

end LineScript
