import LineScript.Trace

/-!
# Counting what finishing did

Three kinds of steps change the shape of a tree: a list is reduced, parentheses give way to what
they hold, a bracket or a brace becomes a tree of its own. They are counted from the record of a
compilation, so that a region that ends in a complaint counts as far as it came.
-/

namespace LineScript

/-- How many steps of each kind were taken. Only a difference of two counts has numbers below
zero. -/
structure Tally where
  /-- Lists handed to reduction. -/
  lists : Int
  /-- Parentheses replaced by what they hold. -/
  parens : Int
  /-- Brackets and braces that became trees of their own. -/
  groups : Int
deriving DecidableEq

namespace Tally

/-- The count of a record. -/
def ofSteps (steps : List Step) : Tally :=
  ⟨steps.count .list, steps.count .paren, steps.count .group⟩

/-- The number of all counted steps. -/
def total (t : Tally) : Int := t.lists + t.parens + t.groups

/-- A line for a kind of step, unless none was taken. -/
def line (name : String) (count : Int) : List String :=
  if count = 0 then [] else [s!"  {name}: {count}"]

/-- The kinds of steps that were taken, and how many there were in all. -/
def text (t : Tally) : String :=
  let kinds := line "Expression lists reduced" t.lists ++ line "Parentheses removed" t.parens ++
    line "Bracket/brace groups" t.groups
  "\n".intercalate ("Optimization Statistics:" :: kinds ++ [s!"  Total: {t.total} rewrites"])

@[simp] theorem ofSteps_nil : ofSteps [] = ⟨0, 0, 0⟩ := rfl

theorem ofSteps_append (s t : List Step) :
    ofSteps (s ++ t) = ⟨(ofSteps s).lists + (ofSteps t).lists,
      (ofSteps s).parens + (ofSteps t).parens, (ofSteps s).groups + (ofSteps t).groups⟩ := by
  simp only [ofSteps, List.count_append, Int.natCast_add]

end Tally

end LineScript
