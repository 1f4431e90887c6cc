import LineScript.Operator
import LineScript.Tree

/-!
# Function registry

The functions that a script may call by name, in the order they were registered. A name is
registered at most once, and nothing can be registered after the registry is frozen, so that a
name keeps its meaning for as long as a registry is in use.
-/

namespace LineScript

/-- A function as the registry knows it. -/
structure Descriptor where
  name : String
  docs : String
  /-- The function is the compiler's own, and a bare name in a script does not call it. -/
  internal : Bool
deriving DecidableEq, Inhabited

/-- A table of functions with one entry for a name. -/
structure Registry where
  entries : List Descriptor
  isFrozen : Bool
  nodup : (entries.map (·.name)).Nodup

namespace Registry

/-- Why a function is not registered. -/
inductive Fault where
  | frozen (name : String)
  | taken (name : String)
deriving DecidableEq

/-- A description of the fault. -/
def Fault.message : Fault → String
  | .frozen name => s!"cannot register '{name}': registry is frozen"
  | .taken name => s!"function '{name}' is already registered"

/-- A registry without functions. -/
def empty : Registry := ⟨[], false, .nil⟩

/-- The function registered under a name. -/
def lookup (r : Registry) (name : String) : Option Descriptor :=
  r.entries.find? (·.name == name)

/-- A function is registered under the name. -/
def contains (r : Registry) (name : String) : Bool :=
  (r.entries.map (·.name)).contains name

/-- A bare name in a script calls a function. -/
def isCallable (r : Registry) (name : String) : Bool :=
  (r.lookup name).any (!·.internal)

/-- The names of all functions in the order of their code points. -/
def names (r : Registry) : List String :=
  (r.entries.map (·.name)).mergeSort fun a b => a ≤ b

/-- The number of functions. -/
def size (r : Registry) : Nat := r.entries.length

/-- Add a function behind the others. -/
def register (r : Registry) (d : Descriptor) : Except Fault Registry :=
  if r.isFrozen then .error (.frozen d.name)
  else if h : d.name ∈ r.entries.map (·.name) then .error (.taken d.name)
  else
    .ok ⟨r.entries ++ [d], false, by
      rw [List.map_append, List.nodup_append]
      refine ⟨r.nodup, by simp, ?_⟩
      intro a ha b hb hab
      obtain rfl : b = d.name := by simpa using hb
      exact h (hab ▸ ha)⟩

/-- Allow no further registration. -/
def freeze (r : Registry) : Registry :=
  { r with isFrozen := true }

/-- Register functions one after the other. -/
def registerAll (r : Registry) (ds : List Descriptor) : Except Fault Registry :=
  ds.foldlM register r

/-! ### One request after the other -/

/-- What a registry is asked for. -/
inductive Request where
  | register (d : Descriptor)
  | freeze
  | lookup (name : String)
  | isCallable (name : String)
  | contains (name : String)
  | names
  | entries

/-- What it answers. -/
inductive Answer where
  | done
  | refused (fault : Fault)
  | found (d : Option Descriptor)
  | holds (b : Bool)
  | names (names : List String)
  | entries (ds : List Descriptor)

/-- Answer one request. A refused registration changes nothing. -/
def answer (r : Registry) : Request → Registry × Answer
  | .register d =>
    match r.register d with
    | .ok r => (r, .done)
    | .error fault => (r, .refused fault)
  | .freeze => (r.freeze, .done)
  | .lookup name => (r, .found (r.lookup name))
  | .isCallable name => (r, .holds (r.isCallable name))
  | .contains name => (r, .holds (r.contains name))
  | .names => (r, .names r.names)
  | .entries => (r, .entries r.entries)

/-- Answer requests one after the other; each answer comes with the registry after it. -/
def answers (r : Registry) : List Request → List (Registry × Answer)
  | [] => []
  | request :: requests =>
    let (r, answer) := r.answer request
    (r, answer) :: r.answers requests

end Registry

end LineScript
