/-!
# Operator symbols

Which spellings are operators, what operation a symbol stands for, and how tightly it binds.
A step, `++` or `--`, is two symbols by its place: after its operand it is one operation, before
it another. The signs `+` and `-` are prefix symbols where no operand comes before them and binary
symbols otherwise, so that their tier is not told by the spelling alone.

From tight to loose: steps behind an operand, prefix symbols, the seven tiers of binary symbols,
and assignment, which alone groups to the right.
-/

namespace LineScript

/-- Where a symbol stands with regard to its operands: before one, after one, or between two. -/
inductive Fixity where
  | before
  | after
  | between
deriving DecidableEq, Inhabited

/-- The tiers of binary symbols. -/
inductive Tier where
  | exponential
  | multiplicative
  | additive
  | relational
  | equality
  | logicalAnd
  | logicalOr
deriving DecidableEq

namespace Tier

/-- All tiers, the tightest first. -/
def all : List Tier :=
  [.exponential, .multiplicative, .additive, .relational, .equality, .logicalAnd, .logicalOr]

/-- The name of a tier in the record of a compilation. -/
def name : Tier → String
  | .exponential => "exponential"
  | .multiplicative => "multiplicative"
  | .additive => "additive"
  | .relational => "relational"
  | .equality => "equality"
  | .logicalAnd => "logical_and"
  | .logicalOr => "logical_or"

/-- The symbols of a tier. -/
def spellings : Tier → List String
  | .exponential => ["**"]
  | .multiplicative => ["*", "/", "%"]
  | .additive => ["+", "-", "."]
  | .relational => ["<", ">", "<=", ">="]
  | .equality => ["==", "!=", "===", "!=="]
  | .logicalAnd => ["&&"]
  | .logicalOr => ["||"]

/-- The spelling belongs to the tier. -/
def holds (tier : Tier) (spelling : String) : Bool :=
  tier.spellings.contains spelling

end Tier

namespace Operator

/-- The operation of a minus sign before its operand. -/
def negation : String := "neg"

/-- The operation of a plus sign before its operand. -/
def identity : String := "identity"

/-- The operation of every assignment. -/
def assign : String := "assign"

/-- The operations of binary and prefix symbols. -/
def operations : List (String × String) := [
  ("**", "pow"),
  ("*", "multiply"), ("/", "divide"), ("%", "mod"),
  ("+", "add"), ("-", "subtract"), (".", "concat"),
  ("<", "lt"), (">", "gt"), ("<=", "lte"), (">=", "gte"),
  ("==", "equals"), ("!=", "nequals"), ("===", "sequals"), ("!==", "snequals"),
  ("&&", "and"), ("||", "or"), ("!", "not"),
  ("++", "inc"), ("--", "dec")]

/-- The operations of steps behind their operand. -/
def stepOperations : List (String × String) := [("++", "postinc"), ("--", "postdec")]

/-- The assignments, with the operation that a compound one applies first. -/
def assignments : List (String × Option String) := [
  ("=", none), ("+=", "add"), ("-=", "subtract"), ("*=", "multiply"), ("/=", "divide"),
  (".=", "concat")]

/-- The spelling is an assignment. -/
def isAssignment (spelling : String) : Bool :=
  (assignments.map (·.1)).contains spelling

/-- The spellings of all operators. -/
def known : List String :=
  operations.map (·.1) ++ assignments.map (·.1)

/-- The spelling is an operator of some kind. -/
def isKnown (spelling : String) : Bool :=
  known.contains spelling

/-- Every spelling of an operator, the longer ones first, so that the first one with which a text
begins is the longest. -/
def spellings : List String :=
  [3, 2, 1].flatMap fun size => known.filter (·.length = size)

/-- The spelling is a step, `++` or `--`. -/
def isStep (spelling : String) : Bool :=
  (stepOperations.map (·.1)).contains spelling

/-- The spelling is a sign, which is a prefix symbol only where no operand precedes it. -/
def isSign (spelling : String) : Bool :=
  spelling == "+" || spelling == "-"

/-- The symbol is a step that follows its operand. -/
def isPostfix (spelling : String) (fixity : Fixity) : Bool :=
  isStep spelling && fixity == .after

/-- The symbol may precede its operand. -/
def isUnary (spelling : String) (fixity : Fixity) : Bool :=
  isSign spelling || spelling == "!" || (isStep spelling && fixity != .after)

/-- The operation that a symbol stands for between or after operands or, unless it is a sign,
before one. -/
def operation? (spelling : String) (fixity : Fixity) : Option String :=
  if isPostfix spelling fixity then stepOperations.lookup spelling
  else if isAssignment spelling then some assign
  else operations.lookup spelling

/-- The operation of a prefix symbol. -/
def prefixOperation (spelling : String) (fixity : Fixity) : String :=
  if spelling = "-" then negation
  else if spelling = "+" then identity
  else (operation? spelling fixity).getD spelling

/-- The operation of a known symbol; an unknown one keeps its spelling. -/
def operation (spelling : String) (fixity : Fixity) : String :=
  (operation? spelling fixity).getD spelling

/-- The operation that a compound assignment applies first. -/
def compound? (spelling : String) : Option String :=
  (assignments.lookup spelling).join

private theorem length_of_mem_known : ∀ spelling ∈ known, spelling.length ∈ [3, 2, 1] := by
  decide

theorem length_pos_of_isKnown {spelling : String} (h : isKnown spelling = true) :
    0 < spelling.length := by
  have hlen := length_of_mem_known spelling (by simpa [isKnown] using h)
  simp only [List.mem_cons, List.not_mem_nil, or_false] at hlen
  omega

theorem mem_spellings_iff (spelling : String) :
    spelling ∈ spellings ↔ isKnown spelling = true := by
  simp only [spellings, isKnown, List.contains_iff_mem, List.mem_flatMap, List.mem_filter,
    decide_eq_true_eq]
  constructor
  · rintro ⟨_, _, h, _⟩
    exact h
  · intro h
    exact ⟨_, length_of_mem_known spelling h, h, rfl⟩

end Operator

end LineScript
