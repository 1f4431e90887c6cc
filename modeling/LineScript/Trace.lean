import LineScript.Failure

/-!
# The record of a compilation

A computation of the compiler keeps a record of the steps it took, also when it ends in a failure.
Steps with a text make up the log of a compilation; others are only counted.
-/

namespace LineScript

/-- A step of a compilation. -/
inductive Step where
  /-- A source was grouped into regions. -/
  | grouped (regions : Nat) (file : String)
  | unary (spelling : String) (place : Location)
  | binary (tier : Tier) (spelling : String) (place : Location)
  | assignment (spelling : String) (place : Location)
  | implicitCall (name : String) (place : Location)
  /-- A list of siblings was handed to reduction. -/
  | list
  /-- Parentheses were replaced by what they hold. -/
  | paren
  /-- Parentheses with several values were handed to reduction. -/
  | parenList (count : Nat) (place : Location)
  /-- A bracket or a brace became a tree of its own. -/
  | group
  | compiled (file : String) (regions errors : Nat)
deriving DecidableEq

/-- The log text of a step; steps that are only counted have none. -/
def Step.text? : Step → Option String
  | .grouped regions file => some s!"Parsed {regions} regions from {file}"
  | .unary spelling place => some s!"Unary {spelling} reduced at {place.text}"
  | .binary tier spelling place => some s!"{tier.name} {spelling} reduced at {place.text}"
  | .assignment spelling place => some s!"Assignment {spelling} reduced at {place.text}"
  | .implicitCall name place => some s!"Implicit call of '{name}' at {place.text}"
  | .parenList count place => some s!"p() with {count} values reduced as a list at {place.text}"
  | .compiled file regions errors => some s!"Compiled {file}: {regions} regions, {errors} errors"
  | .list | .paren | .group => none

/-- A result, or a failure, with the steps taken to it. -/
structure Traced (α : Type) where
  steps : List Step
  result : Except Failure α

namespace Traced

variable {α β : Type}

/-- Go on with a result; the steps of both computations are kept. -/
def bind (x : Traced α) (f : α → Traced β) : Traced β :=
  match x.result with
  | .ok a => ⟨x.steps ++ (f a).steps, (f a).result⟩
  | .error e => ⟨x.steps, .error e⟩

instance : Monad Traced where
  pure a := ⟨[], .ok a⟩
  bind := bind

/-- Take a step. -/
def step (s : Step) : Traced Unit := ⟨[s], .ok ()⟩

/-- Fail. -/
def fail (f : Failure) : Traced α := ⟨[], .error f⟩

/-- Complain about a place. -/
def complain (complaint : Complaint) (place : Location) : Traced α :=
  ⟨[], Failure.complain complaint place⟩

/-- A result without steps. -/
def lift (result : Except Failure α) : Traced α := ⟨[], result⟩

@[simp] theorem steps_pure (a : α) : (pure a : Traced α).steps = [] := rfl

@[simp] theorem result_pure (a : α) : (pure a : Traced α).result = .ok a := rfl

@[simp] theorem result_step (s : Step) : (step s).result = .ok () := rfl

@[simp] theorem steps_step (s : Step) : (step s).steps = [s] := rfl

@[simp] theorem result_complain (c : Complaint) (p : Location) :
    (complain c p : Traced α).result = Failure.complain c p := rfl

@[simp] theorem result_bind (x : Traced α) (f : α → Traced β) :
    (x >>= f).result = x.result >>= fun a => (f a).result := by
  cases x with
  | mk steps result => cases result <;> rfl

theorem steps_bind_of_ok {x : Traced α} {a : α} (h : x.result = .ok a) (f : α → Traced β) :
    (x >>= f).steps = x.steps ++ (f a).steps := by
  cases x with
  | mk steps result =>
    obtain rfl : result = .ok a := h
    rfl

end Traced

end LineScript
