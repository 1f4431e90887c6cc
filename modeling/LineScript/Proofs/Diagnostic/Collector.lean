import LineScript.Diagnostic.Collector
import Mathlib.Data.List.Basic
import Mathlib.Tactic.Common

/-!
# The account that a collector keeps

A diagnostic that is added several times is one diagnostic, which goes by its number, and it gets
its source line wherever it has been collected. What was collected is therefore an account of
numbers, and the account is told by the requests alone: how many diagnostics there are, the lines of
the last source, and the numbers of those added since. No request disturbs what it says. A failure
holds the diagnostics of such an account, so that they are those of its numbers ever after.
-/

namespace LineScript

namespace Collector

/-! ### Diagnostics that get their line later -/

/-- The diagnostic is the same, or it had no source line and has one now. -/
def IsCompletion (d e : Diagnostic) : Prop :=
  e = d ∨ d.sourceLine = none ∧ ∃ line, e = d.withSourceLine line

lemma IsCompletion.refl (d : Diagnostic) : IsCompletion d d := .inl rfl

lemma IsCompletion.trans {d e f : Diagnostic} (h : IsCompletion d e) (h' : IsCompletion e f) :
    IsCompletion d f := by
  obtain rfl | ⟨hnone, line, rfl⟩ := h
  · exact h'
  · obtain rfl | ⟨hsome, -⟩ := h'
    · exact .inr ⟨hnone, line, rfl⟩
    · cases hsome

/-- The source line that a diagnostic has when it is collected. -/
lemma attach_eq_or (c : Collector) (d : Diagnostic) : c.attach d = { d with
    sourceLine := d.sourceLine.or (d.place.bind fun place => Text.line? c.lines place.line) } := by
  obtain ⟨complaint, place, sourceLine⟩ := d
  cases sourceLine with
  | some line => rfl
  | none =>
    cases place with
    | none => rfl
    | some place =>
      simp only [attach, Option.bind_some, Option.none_or]
      cases Text.line? c.lines place.line <;> rfl

lemma add_eq (c : Collector) (d : Diagnostic) : c.add d =
    ({ c with
        collected := c.collected ++ [c.attach d]
        stops := c.stops ++ if ((c.collected.length + 1 : Nat) : Int) < c.limit then []
          else [c.collected.length + 1] },
      decide (((c.collected.length + 1 : Nat) : Int) < c.limit)) := by
  unfold add
  dsimp only
  rw [List.length_append, List.length_singleton]
  split_ifs with hlimit
  · rw [List.append_nil, decide_eq_true hlimit]
  · rw [decide_eq_false hlimit]

namespace Session

variable {s : Session} {r : Session × Answer} {n : Nat} {d : Diagnostic}

/-- The session behind requests. -/
def after (s : Session) (requests : List Request) : Session :=
  requests.foldl (fun s request => (s.answer request).1) s

/-- A request of a run is answered by the session behind those before it. -/
lemma getElem?_answers (s : Session) (before : List Request) (request : Request)
    (later : List Request) : (s.answers (before ++ request :: later))[before.length]? =
      some ((s.after before).answer request) := by
  induction before generalizing s with
  | nil => rfl
  | cons first before ih => exact ih (s.answer first).1

/-- The diagnostic with the number `n`, which has been `d` so far, is added. -/
structure Adds (s : Session) (n : Nat) (d : Diagnostic) (r : Session × Answer) : Prop where
  collector : r.1.collector = (s.collector.add d).1
  added : ∀ m, r.1.added[m]? = if m = n then some (s.collector.attach d) else s.added[m]?
  numbers : r.1.numbers = s.numbers ++ [n]
  raised : r.1.raised = s.raised
  answer : r.2 = .goesOn (s.collector.add d).2

lemma adds_add (s : Session) (d : Diagnostic) : s.Adds s.added.length d (s.answer (.add d)) where
  collector := rfl
  added m := by
    have hadded : (s.answer (.add d)).1.added = s.added ++ [s.collector.attach d] := rfl
    rw [hadded]
    split_ifs with hm
    · rw [hm, List.getElem?_concat_length]
    · rw [List.getElem?_append]
      split_ifs with hless
      · rfl
      · rw [List.getElem?_eq_none (by simp; omega), List.getElem?_eq_none (by omega)]
  numbers := rfl
  raised := rfl
  answer := rfl

lemma answer_addAgain (h : s.added[n]? = some d) : s.answer (.addAgain n) =
    (⟨(s.collector.add d).1, s.added.set n (s.collector.attach d), s.numbers ++ [n], s.raised⟩,
      .goesOn (s.collector.add d).2) := by
  simp only [answer, h]

lemma adds_addAgain (h : s.added[n]? = some d) : s.Adds n d (s.answer (.addAgain n)) := by
  obtain ⟨hn, -⟩ := List.getElem?_eq_some_iff.mp h
  rw [answer_addAgain h]
  refine ⟨rfl, fun m => ?_, rfl, rfl, rfl⟩
  rw [List.getElem?_set, if_pos hn]
  exact if_congr eq_comm rfl rfl

lemma answer_addAgain_of_none (h : s.added[n]? = none) :
    s.answer (.addAgain n) = (s, .done) := by
  simp only [answer, h]

lemma answer_verdict (s : Session) : s.answer .verdict =
    if s.collector.collected = [] then (s, .done)
    else ({ s with raised := s.raised ++ [s.numbers] },
      .failed (.rejected s.collector.report s.collector.collected)) := by
  unfold answer verdict
  cases s.collector.collected <;> rfl

/-- A verdict changes nothing but which failures were raised. -/
lemma exists_raised_verdict (s : Session) :
    ∃ raised, (s.answer .verdict).1 = { s with raised } ∧ s.raised <+: raised := by
  rw [answer_verdict]
  split_ifs
  · exact ⟨s.raised, rfl, List.prefix_refl _⟩
  · exact ⟨_, rfl, List.prefix_append _ _⟩

/-! ### Diagnostics stay -/

end Session

/-! ### The account -/

/-- What requests come to, without the collector that answers them. -/
structure Account where
  /-- How many diagnostics there are. -/
  count : Nat
  /-- The lines of the source that was turned to last. -/
  lines : List String
  /-- The numbers of the diagnostics that were added to this source. -/
  numbers : List Nat

/-- The account after one more request. -/
def Account.note (a : Account) : Request → Account
  | .start lines => ⟨a.count, lines, []⟩
  | .add _ => ⟨a.count + 1, a.lines, a.numbers ++ [a.count]⟩
  | .addAgain n => if n < a.count then ⟨a.count, a.lines, a.numbers ++ [n]⟩ else a
  | .report | .verdict => a

/-- The numbers up to `k` that reach the limit. -/
def reaching (limit : Int) : Nat → List Nat
  | 0 => []
  | k + 1 => reaching limit k ++ if ((k + 1 : Nat) : Int) < limit then [] else [k + 1]

variable {limit : Int} {s : Session} {a : Account} {r : Session × Answer} {n : Nat} {d : Diagnostic}

/-- A collector is in the state that an account tells. -/
structure Keeps (limit : Int) (s : Session) (a : Account) : Prop where
  limit_eq : s.collector.limit = limit
  lines : s.collector.lines = a.lines
  count : s.added.length = a.count
  numbers : s.numbers = a.numbers
  collected : s.collector.collected.map some = a.numbers.map (s.added[·]?)
  stops : s.collector.stops = reaching limit a.numbers.length
  /-- What has been collected has the source line that it gets. -/
  attached : ∀ d ∈ s.collector.collected, s.collector.attach d = d

lemma Keeps.length_collected (h : Keeps limit s a) :
    s.collector.collected.length = a.numbers.length := by
  simpa using congrArg List.length h.collected

/-- A diagnostic that has been collected for this source already is not changed by being added. -/
lemma Keeps.attach_of_mem (h : Keeps limit s a) (hn : n ∈ a.numbers) (hd : s.added[n]? = some d) :
    s.collector.attach d = d := by
  have hmem : some d ∈ s.collector.collected.map some := by
    rw [h.collected, ← hd]
    exact List.mem_map_of_mem hn
  obtain ⟨e, he, heq⟩ := List.mem_map.mp hmem
  obtain rfl := Option.some.inj heq
  exact h.attached e he

lemma Keeps.map_added (h : Keeps limit s a) (hadds : s.Adds n d r)
    (hd : n ∈ a.numbers → s.added[n]? = some d) :
    a.numbers.map (r.1.added[·]?) = a.numbers.map (s.added[·]?) := by
  apply List.map_congr_left
  intro m hm
  rw [hadds.added m]
  split_ifs with heq
  · subst heq
    rw [hd hm, h.attach_of_mem hm (hd hm)]
  · rfl

/-- What adding a diagnostic does to the account. -/
lemma Keeps.add (h : Keeps limit s a) (hadds : s.Adds n d r)
    (hd : n ∈ a.numbers → s.added[n]? = some d) {count : Nat} (hcount : r.1.added.length = count) :
    Keeps limit r.1 ⟨count, a.lines, a.numbers ++ [n]⟩ := by
  have hcollector := hadds.collector
  rw [add_eq, h.length_collected, h.limit_eq] at hcollector
  constructor
  · rw [hcollector]
  · rw [hcollector]
    exact h.lines
  · exact hcount
  · rw [hadds.numbers, h.numbers]
  · rw [hcollector, List.map_append, List.map_append, h.map_added hadds hd, h.collected,
      List.map_singleton, List.map_singleton, hadds.added n, if_pos rfl]
  · rw [hcollector, List.length_append, List.length_singleton, reaching, h.stops]
  · intro e he
    rw [hcollector] at he ⊢
    obtain he | he := List.mem_append.mp he
    · exact h.attached e he
    · obtain rfl := List.mem_singleton.mp he
      exact s.collector.attach_attach d

lemma Keeps.lt_count (h : Keeps limit s a) (hn : n ∈ a.numbers) : n < a.count := by
  have hmem : s.added[n]? ∈ s.collector.collected.map some := by
    rw [h.collected]
    exact List.mem_map_of_mem hn
  obtain ⟨d, -, hd⟩ := List.mem_map.mp hmem
  obtain ⟨hlength, -⟩ := List.getElem?_eq_some_iff.mp hd.symm
  exact h.count ▸ hlength

/-- Every request takes a collector to the state of the account after it. -/
lemma Keeps.answer (h : Keeps limit s a) (request : Request) :
    Keeps limit (s.answer request).1 (a.note request) := by
  cases request with
  | start lines =>
    exact ⟨h.limit_eq, rfl, h.count, rfl, rfl, rfl, fun _ hd => absurd hd List.not_mem_nil⟩
  | add d =>
    rw [Account.note, ← h.count]
    have hadded : (s.answer (.add d)).1.added = s.added ++ [s.collector.attach d] := rfl
    have hnew : s.added.length ∈ a.numbers → s.added[s.added.length]? = some d := fun hmem =>
      absurd (h.lt_count hmem) (by rw [h.count]; exact Nat.lt_irrefl _)
    exact h.add (s.adds_add d) hnew (by rw [hadded, List.length_append, List.length_singleton])
  | addAgain n =>
    rw [Account.note]
    split_ifs with hn
    · obtain ⟨d, hd⟩ : ∃ d, s.added[n]? = some d := ⟨_, List.getElem?_eq_getElem (h.count ▸ hn)⟩
      refine h.add (Session.adds_addAgain hd) (fun _ => hd) ?_
      rw [Session.answer_addAgain hd, List.length_set]
      exact h.count
    · have hnone : s.added[n]? = none := List.getElem?_eq_none (by rw [h.count]; omega)
      rwa [Session.answer_addAgain_of_none hnone]
  | report => exact h
  | verdict =>
    obtain ⟨raised, hverdict, -⟩ := s.exists_raised_verdict
    rw [hverdict]
    exact ⟨h.limit_eq, h.lines, h.count, h.numbers, h.collected, h.stops, h.attached⟩

lemma Keeps.after (h : Keeps limit s a) (requests : List Request) :
    Keeps limit (s.after requests) (requests.foldl Account.note a) := by
  induction requests generalizing s a with
  | nil => exact h
  | cons request requests ih => exact ih (h.answer request)

/-- The text of the warning about a stop. -/
def stopWarning (count : Nat) : String := s!"warning: stopped after {count} errors"

/-- The diagnostic with the number `n`, which has been `d` so far, is recorded: it gets the line of
its place if it has none, and it is collected as the next one. -/
structure Records (limit : Int) (a : Account) (s : Session) (n : Nat) (d : Diagnostic)
    (r : Session × Answer) : Prop where
  diagnostic : r.1.added[n]? = some { d with
    sourceLine := d.sourceLine.or (d.place.bind fun place => Text.line? a.lines place.line) }
  others : ∀ m, m ≠ n → r.1.added[m]? = s.added[m]?
  collected : r.1.collector.collected = s.collector.collected ++ r.1.added[n]?.toList
  answer : r.2 = .goesOn (decide (((a.numbers.length + 1 : Nat) : Int) < limit))
  warnings : r.1.collector.warnings = s.collector.warnings ++
    if ((a.numbers.length + 1 : Nat) : Int) < limit then []
    else [stopWarning (a.numbers.length + 1)]
  raised : r.1.raised = s.raised

lemma Keeps.records (h : Keeps limit s a) (hadds : s.Adds n d r) : Records limit a s n d r := by
  have hdiagnostic : r.1.added[n]? = some (s.collector.attach d) := by
    rw [hadds.added n, if_pos rfl]
  have hcollector := hadds.collector
  rw [add_eq, h.length_collected, h.limit_eq] at hcollector
  constructor
  · rw [hdiagnostic, attach_eq_or, h.lines]
  · intro m hm
    rw [hadds.added m, if_neg hm]
  · rw [hdiagnostic, hcollector, Option.toList_some]
  · rw [hadds.answer, add_eq, h.length_collected, h.limit_eq]
  · rw [hcollector, warnings, List.map_append, ← warnings]
    split_ifs <;> rfl
  · exact hadds.raised

/-- What a request comes to, by the account so far. -/
def Answers (limit : Int) (a : Account) (s : Session) (r : Session × Answer) : Request → Prop
  | .start _ => r.2 = .done ∧ r.1.added = s.added ∧ r.1.collector.collected = [] ∧
      r.1.collector.warnings = [] ∧ r.1.raised = s.raised
  | .add d => Records limit a s a.count d r
  | .addAgain n => ∀ d, s.added[n]? = some d → Records limit a s n d r
  | .report => r = (s, .report s.collector.report)
  | .verdict =>
      if a.numbers = [] then r = (s, .done)
      else r.1 = { s with raised := s.raised ++ [a.numbers] } ∧
        ∃ failure, r.2 = .failed failure ∧ failure.message = s.collector.report ∧
          failure = .rejected s.collector.report s.collector.collected

lemma Keeps.answers (h : Keeps limit s a) (request : Request) :
    Answers limit a s (s.answer request) request := by
  cases request with
  | start => exact ⟨rfl, rfl, rfl, rfl, rfl⟩
  | add d =>
    rw [Answers, ← h.count]
    exact h.records (s.adds_add d)
  | addAgain n => exact fun d hd => h.records (Session.adds_addAgain hd)
  | report => exact rfl
  | verdict =>
    have hempty : s.collector.collected = [] ↔ a.numbers = [] := by
      rw [← List.length_eq_zero_iff, h.length_collected, List.length_eq_zero_iff]
    rw [Answers, Session.answer_verdict, ← h.numbers]
    rw [← h.numbers] at hempty
    by_cases hnone : s.numbers = []
    · rw [if_pos hnone, if_pos (hempty.mpr hnone)]
    · rw [if_neg hnone, if_neg (mt hempty.mp hnone)]
      exact ⟨rfl, _, rfl, rfl, rfl⟩

end Collector

end LineScript
