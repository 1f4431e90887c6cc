import LineScript.Reduction
import LineScript.Tally

/-!
# Finished trees

A tree of groups is finished from the leaves up: every list is reduced, parentheses give way to
what they hold, and brackets and braces become trees of their own. Every other call keeps its
name. Nothing is evaluated.
-/

namespace LineScript

namespace Tree

open Traced

/-- The one tree within a bracket or a brace, or the empty value. -/
def soleContent (place : Location) (group : String) : List Tree → Traced Tree
  | [] => pure (.void place)
  | [t] => pure t
  | ts => complain (.crowdedGroup group ts.length) place

/-- What a call with finished children stands for. -/
def finishCall (d : Dialect) (place : Location) (name : String) (children : List Tree) :
    Traced Tree :=
  if name = listName then do
    step .list
    Reduction.reduce d place children
  else if name = parenName then do
    step .paren
    match children with
    | [] => return .void place
    | [t] => return t
    | ts =>
      step (.parenList ts.length place)
      Reduction.reduce d place ts
  else if name = bracketName then do
    step .group
    return .bracket place (← soleContent place "[]" children)
  else if name = braceName then do
    step .group
    return .brace place (← soleContent place "\x7b\x7d" children)
  else pure (.call place name children)

mutual

/-- The finished tree. A hole cannot be finished. -/
def finish (d : Dialect) : Tree → Traced Tree
  | .hole => fail .hole
  | .call p name children => do finishCall d p name (← finishList d children)
  | .entry p l v => do return .entry p l (← finish d v)
  | .join p mode children => do return .join p mode (← finishList d children)
  | .bracket p content => do return .bracket p (← finish d content)
  | .brace p content => do return .brace p (← finish d content)
  | t => pure t

/-- The finished trees of a list. -/
def finishList (d : Dialect) : List Tree → Traced (List Tree)
  | [] => pure []
  | t :: ts => do
    let t ← finish d t
    return t :: (← finishList d ts)

end

/-- Finish trees one after the other, each by itself. With every result comes the count of all
steps so far, those before a failure included; `steps` were taken before the first tree. -/
def finishEach (d : Dialect) (steps : List Step) : List Tree → List (Except Failure Tree × Tally)
  | [] => []
  | t :: ts =>
    let finished := t.finish d
    let steps := steps ++ finished.steps
    (finished.result, .ofSteps steps) :: finishEach d steps ts

end Tree

end LineScript
