import LineScript.Tree

/-!
# Trees of the same shape

Two trees are alike when they differ in places only. Values are compared by what they stand for,
so that the number one is like the truth value true.
-/

namespace LineScript

namespace Tree

mutual

/-- The trees are the same but for their places. -/
def isLike : Tree → Tree → Bool
  | .hole, .hole => true
  | .symbol _ s f, .symbol _ s' f' => s == s' && f == f'
  | .label _ n, .label _ n' => n == n'
  | .identifier _ n, .identifier _ n' => n == n'
  | .literal _ v, .literal _ v' => v.same v'
  | .variable _ n, .variable _ n' => n == n'
  | .void _, .void _ => true
  | .call _ n ts, .call _ n' ts' => n == n' && isLikeList ts ts'
  | .entry _ l v, .entry _ l' v' => isLike l l' && isLike v v'
  | .join _ m ts, .join _ m' ts' => m == m' && isLikeList ts ts'
  | .bracket _ t, .bracket _ t' => isLike t t'
  | .brace _ t, .brace _ t' => isLike t t'
  | _, _ => false

/-- The lists have as many trees, one like the other in order. -/
def isLikeList : List Tree → List Tree → Bool
  | [], [] => true
  | t :: ts, t' :: ts' => isLike t t' && isLikeList ts ts'
  | _, _ => false

end

end Tree

end LineScript
