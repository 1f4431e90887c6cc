import LineScript.Failure

/-!
# Collecting diagnostics

A collector gathers the diagnostics of one source, in order. It gives each the source line that
its place names, unless it has one already, and asks for a stop once as many have come in as it
is meant to take; every diagnostic from then on leaves a warning.
-/

namespace LineScript

/-- The diagnostics of a source and the lines of that source. -/
structure Collector where
  /-- Compilation stops at so many diagnostics. -/
  limit : Int
  lines : List String
  collected : List Diagnostic
  /-- How many diagnostics there were each time a stop was asked for. -/
  stops : List Nat

namespace Collector

/-- A collector that has seen no source. -/
def new (limit : Int) : Collector := ⟨limit, [], [], []⟩

/-- Forget what was collected and turn to a source with the given lines. -/
def start (c : Collector) (lines : List String) : Collector :=
  { c with lines, collected := [], stops := [] }

/-- The diagnostic as it is collected: with the source line of its place, if it has none yet and
the source has that line. -/
def attach (c : Collector) (d : Diagnostic) : Diagnostic :=
  match d.sourceLine, d.place with
  | none, some place =>
    match Text.line? c.lines place.line with
    | some line => d.withSourceLine line
    | none => d
  | _, _ => d

theorem attach_of_sourceLine {c : Collector} {d : Diagnostic} {line : String}
    (h : d.sourceLine = some line) : c.attach d = d := by
  simp [attach, h]

/-- A source line once attached stays. -/
theorem attach_attach (c : Collector) (d : Diagnostic) : c.attach (c.attach d) = c.attach d := by
  cases hline : (c.attach d).sourceLine with
  | some line => exact attach_of_sourceLine hline
  | none =>
    have hself : c.attach d = d := by
      unfold attach at hline ⊢
      split at hline
      · split at hline
        · simp [Diagnostic.withSourceLine] at hline
        · simp_all
      · rfl
    rw [hself, hself]

/-- Collect a diagnostic, and tell whether compilation should go on. -/
def add (c : Collector) (d : Diagnostic) : Collector × Bool :=
  let collected := c.collected ++ [c.attach d]
  if collected.length < c.limit then ({ c with collected }, true)
  else ({ c with collected, stops := c.stops ++ [collected.length] }, false)

/-- The warnings about stops. -/
def warnings (c : Collector) : List String :=
  c.stops.map fun count => s!"warning: stopped after {count} errors"

/-- A number of things with their name. -/
def counted (count : Nat) (thing : String) : String :=
  toString count ++ " " ++ thing ++ (if count = 1 then "" else "s")

/-- All diagnostics and warnings for display, and how many there are. -/
def report (c : Collector) : String :=
  let errors := c.collected.flatMap fun d => [d.message, ""]
  let totals := counted c.collected.length "error" ++ ", " ++ counted c.stops.length "warning"
  "\n".intercalate (errors ++ c.warnings ++ ["\n" ++ totals])

/-- The failure of a source about which something was collected. -/
def verdict (c : Collector) : Except Failure Unit :=
  if c.collected.isEmpty then .ok () else .error (.rejected c.report c.collected)

/-! ### One request after the other -/

/-- What a collector is asked for. -/
inductive Request where
  | start (lines : List String)
  | add (d : Diagnostic)
  /-- Add the diagnostic again that was the one with this number, from zero, to be added. -/
  | addAgain (number : Nat)
  | report
  | verdict

/-- What it answers. -/
inductive Answer where
  | done
  | goesOn (b : Bool)
  | report (text : String)
  | failed (failure : Failure)

/-- A collector in use. -/
structure Session where
  collector : Collector
  /-- Every diagnostic that was added, also before the last start, with the source line it has by
  now. One that is added again keeps its number. -/
  added : List Diagnostic
  /-- The numbers of those that are collected. -/
  numbers : List Nat
  /-- The failures raised so far, each by the numbers of the diagnostics that it holds. -/
  raised : List (List Nat)

namespace Session

/-- A collector that nothing was added to. -/
def new (limit : Int) : Session := ⟨.new limit, [], [], []⟩

/-- Answer one request. -/
def answer (s : Session) : Request → Session × Answer
  | .start lines => ({ s with collector := s.collector.start lines, numbers := [] }, .done)
  | .add d =>
    let (collector, goesOn) := s.collector.add d
    let added := s.added ++ [s.collector.attach d]
    ({ s with collector, added, numbers := s.numbers ++ [s.added.length] }, .goesOn goesOn)
  | .addAgain number =>
    match s.added[number]? with
    | none => (s, .done)
    | some d =>
      let (collector, goesOn) := s.collector.add d
      let added := s.added.set number (s.collector.attach d)
      ({ s with collector, added, numbers := s.numbers ++ [number] }, .goesOn goesOn)
  | .report => (s, .report s.collector.report)
  | .verdict =>
    match s.collector.verdict with
    | .ok _ => (s, .done)
    | .error failure => ({ s with raised := s.raised ++ [s.numbers] }, .failed failure)

/-- Answer requests one after the other; each answer comes with the session after it. -/
def answers (s : Session) : List Request → List (Session × Answer)
  | [] => []
  | request :: requests =>
    let (s, answer) := s.answer request
    (s, answer) :: s.answers requests

end Session

end Collector

end LineScript
