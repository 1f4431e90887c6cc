import LineScript.Registry
import Mathlib.Data.String.Basic

/-!
# A registry is a table that is written once

Whatever a registry is asked for, in any order, it is a table of the functions that it began with
and of those whose registration succeeded since, in this order. Every view of a registry tells of
this table, and a name that has a function keeps it.

The table is told by the answers that were given, not by the registry.
-/

namespace LineScript

namespace Registry

variable {r : Registry} {d : Descriptor} {known : List Descriptor}

/-! ### Runs -/

/-- The registry behind requests. -/
def after (r : Registry) (requests : List Request) : Registry :=
  requests.foldl (fun r request => (r.answer request).1) r

/-- The function of a request that was answered by its registration. -/
def newlyRegistered : Request → Answer → Option Descriptor
  | .register d, .done => some d
  | _, _ => none

/-- The functions whose registration succeeded, in the order of the requests. -/
def registered (r : Registry) : List Request → List Descriptor
  | [] => []
  | request :: requests =>
    let (next, answer) := r.answer request
    (newlyRegistered request answer).toList ++ next.registered requests

lemma after_cons (r : Registry) (request : Request) (requests : List Request) :
    r.after (request :: requests) = (r.answer request).1.after requests := rfl

/-- A request of a run is answered by the registry behind those before it. -/
lemma getElem?_answers (r : Registry) (before : List Request) (request : Request)
    (later : List Request) : (r.answers (before ++ request :: later))[before.length]? =
      some ((r.after before).answer request) := by
  induction before generalizing r with
  | nil => rfl
  | cons first before ih => exact ih (r.answer first).1

/-! ### One request -/

lemma contains_iff {name : String} : r.contains name = true ↔ ∃ d ∈ r.entries, d.name = name := by
  simp [contains]

lemma register_of_isFrozen (h : r.isFrozen = true) (d : Descriptor) :
    r.register d = .error (.frozen d.name) :=
  if_pos h

lemma register_of_contains (hfrozen : r.isFrozen = false) (h : r.contains d.name = true) :
    r.register d = .error (.taken d.name) := by
  have hmem : d.name ∈ r.entries.map (·.name) := by simpa [contains] using h
  rw [register, if_neg (Bool.eq_false_iff.mp hfrozen), dif_pos hmem]

/-- A function with a new name is added behind the others. -/
lemma register_of_not_contains (hfrozen : r.isFrozen = false) (h : r.contains d.name = false) :
    ∃ s, r.register d = .ok s ∧ s.entries = r.entries ++ [d] ∧ s.isFrozen = false := by
  have hmem : d.name ∉ r.entries.map (·.name) := by simpa [contains] using h
  rw [register, if_neg (Bool.eq_false_iff.mp hfrozen), dif_neg hmem]
  exact ⟨_, rfl, rfl, rfl⟩

/-- The three ways in which a registration ends. -/
lemma answer_register_cases (r : Registry) (d : Descriptor) :
    (r.isFrozen = true ∧ r.answer (.register d) = (r, .refused (.frozen d.name))) ∨
    (r.isFrozen = false ∧ r.contains d.name = true ∧
      r.answer (.register d) = (r, .refused (.taken d.name))) ∨
    (r.isFrozen = false ∧ r.contains d.name = false ∧ ∃ s,
      r.answer (.register d) = (s, .done) ∧ s.entries = r.entries ++ [d] ∧ s.isFrozen = false) := by
  cases hfrozen : r.isFrozen with
  | true =>
    refine .inl ⟨rfl, ?_⟩
    simp only [answer, register_of_isFrozen hfrozen]
  | false =>
    cases hcontains : r.contains d.name with
    | true =>
      refine .inr (.inl ⟨rfl, rfl, ?_⟩)
      simp only [answer, register_of_contains hfrozen hcontains]
    | false =>
      obtain ⟨s, hs, hentries, hopen⟩ := register_of_not_contains hfrozen hcontains
      refine .inr (.inr ⟨rfl, rfl, s, ?_, hentries, hopen⟩)
      simp only [answer, hs]

/-- The table grows by the function that is registered, if one is. -/
lemma entries_answer (r : Registry) (request : Request) : (r.answer request).1.entries =
    r.entries ++ (newlyRegistered request (r.answer request).2).toList := by
  cases request with
  | register d =>
    obtain ⟨-, h⟩ | ⟨-, -, h⟩ | ⟨-, -, s, h, hentries, -⟩ := r.answer_register_cases d
    · rw [h]
      exact (List.append_nil _).symm
    · rw [h]
      exact (List.append_nil _).symm
    · rw [h]
      exact hentries
  | _ => exact (List.append_nil _).symm

lemma isFrozen_answer (r : Registry) (request : Request) :
    (r.answer request).1.isFrozen = true ↔ r.isFrozen = true ∨ request = .freeze := by
  cases request with
  | register d =>
    obtain ⟨-, h⟩ | ⟨-, -, h⟩ | ⟨hfrozen, -, s, h, -, hopen⟩ := r.answer_register_cases d
    · simp [h]
    · simp [h]
    · simp [h, hfrozen, hopen]
  | freeze => simp [answer, freeze]
  | _ => simp [answer]

/-- Freezing and a registration that succeeds are all that changes a registry. -/
lemma answer_eq_self {request : Request} (hfreeze : request ≠ .freeze)
    (h : newlyRegistered request (r.answer request).2 = none) : (r.answer request).1 = r := by
  cases request with
  | register d =>
    obtain ⟨-, heq⟩ | ⟨-, -, heq⟩ | ⟨-, -, s, heq, -⟩ := r.answer_register_cases d
    · rw [heq]
    · rw [heq]
    · rw [heq] at h
      cases h
  | freeze => exact absurd rfl hfreeze
  | _ => rfl

lemma freeze_of_isFrozen (h : r.isFrozen = true) : r.freeze = r := by
  obtain ⟨entries, isFrozen, hnodup⟩ := r
  obtain rfl : isFrozen = true := h
  rfl

lemma answer_of_isFrozen (h : r.isFrozen = true) (request : Request) :
    (r.answer request).1 = r := by
  cases request with
  | register d => simp only [answer, register_of_isFrozen h]
  | freeze => exact freeze_of_isFrozen h
  | _ => rfl

/-! ### All requests -/

lemma entries_after (r : Registry) (requests : List Request) :
    (r.after requests).entries = r.entries ++ r.registered requests := by
  induction requests generalizing r with
  | nil => exact (List.append_nil _).symm
  | cons request requests ih =>
    exact (ih _).trans ((congrArg (· ++ _) (r.entries_answer request)).trans
      (List.append_assoc _ _ _))

lemma isFrozen_after (r : Registry) (requests : List Request) :
    (r.after requests).isFrozen = true ↔ r.isFrozen = true ∨ .freeze ∈ requests := by
  induction requests generalizing r with
  | nil => simp [after]
  | cons request requests ih =>
    rw [after_cons, ih, isFrozen_answer, List.mem_cons, or_assoc, eq_comm (a := request)]

/-- A frozen registry stays what it is. -/
lemma after_of_isFrozen (h : r.isFrozen = true) (requests : List Request) :
    r.after requests = r := by
  induction requests with
  | nil => rfl
  | cons request requests ih => rw [after_cons, answer_of_isFrozen h, ih]

/-! ### What a table answers -/

/-- A registry shows the functions `known`, whatever it is asked for, and stays what it is. -/
structure Shows (r : Registry) (known : List Descriptor) : Prop where
  nodup : (known.map (·.name)).Nodup
  entries : r.answer .entries = (r, .entries known)
  size : r.size = known.length
  lookup : ∀ name, r.answer (.lookup name) = (r, .found (known.find? (·.name == name)))
  contains : ∀ name, r.answer (.contains name) = (r, .holds (known.any (·.name == name)))
  isCallable : ∀ name, r.answer (.isCallable name) =
    (r, .holds (known.any fun d => d.name == name && !d.internal))
  names : ∃ names, r.answer .names = (r, .names names) ∧ names.Pairwise (· ≤ ·) ∧
    names.Perm (known.map (·.name))

/-- The function under a name is the only one that has it. -/
lemma find?_name (h : (known.map (·.name)).Nodup) (hd : d ∈ known) :
    known.find? (·.name == d.name) = some d := by
  induction known with
  | nil => cases hd
  | cons e known ih =>
    obtain ⟨he, hknown⟩ := List.nodup_cons.mp h
    obtain rfl | hd := List.mem_cons.mp hd
    · exact List.find?_cons_of_pos (beq_self_eq_true _)
    · have hne : e.name ≠ d.name := fun heq => he (List.mem_map.mpr ⟨d, hd, heq.symm⟩)
      rw [List.find?_cons_of_neg (by simpa using hne)]
      exact ih hknown hd

lemma isCallable_eq (r : Registry) (name : String) :
    r.isCallable name = r.entries.any fun d => d.name == name && !d.internal := by
  apply Bool.eq_iff_iff.mpr
  rw [isCallable, Option.any_eq_true, List.any_eq_true]
  constructor
  · rintro ⟨d, hd, hinternal⟩
    have hname : (d.name == name) = true := by
      simpa using List.find?_some (p := fun e : Descriptor => e.name == name) hd
    exact ⟨d, List.mem_of_find?_eq_some hd, Bool.and_eq_true _ _ |>.mpr ⟨hname, hinternal⟩⟩
  · rintro ⟨d, hd, h⟩
    obtain ⟨hname, hinternal⟩ := Bool.and_eq_true _ _ |>.mp h
    obtain rfl : d.name = name := by simpa using hname
    exact ⟨d, find?_name r.nodup hd, hinternal⟩

lemma names_sorted (r : Registry) : r.names.Pairwise (· ≤ ·) := by
  have htrans (a b c : String) (hab : decide (a ≤ b) = true) (hbc : decide (b ≤ c) = true) :
      decide (a ≤ c) = true :=
    decide_eq_true ((of_decide_eq_true hab).trans (of_decide_eq_true hbc))
  have htotal (a b : String) : (decide (a ≤ b) || decide (b ≤ a)) = true := by
    simpa using le_total a b
  have hsorted := List.pairwise_mergeSort htrans htotal (r.entries.map (·.name))
  exact hsorted.imp of_decide_eq_true

lemma shows_entries (r : Registry) : r.Shows r.entries where
  nodup := r.nodup
  entries := rfl
  size := rfl
  lookup _ := rfl
  contains name := by
    have heq : r.contains name = r.entries.any (·.name == name) := by
      apply Bool.eq_iff_iff.mpr
      simp [contains_iff]
    rw [answer, heq]
  isCallable name := by rw [answer, isCallable_eq]
  names := ⟨r.names, rfl, r.names_sorted, List.mergeSort_perm _ _⟩

/-! ### Writing once -/

/-- At every moment of a run a registry shows the functions that it began with and those registered
since, in this order and each under a name of its own. A registration is refused exactly if the
registry is frozen or the name is taken. All but freezing and a registration that is not refused
leaves the registry as it is, a function is found under its name ever after, and no answer of a
frozen registry changes any more. -/
theorem answers_of_write_once (r : Registry) (before : List Request) (request : Request)
    (later : List Request) :
    let s := r.after before
    let known := r.entries ++ r.registered before
    let final := s.after later
    (r.answers (before ++ request :: later))[before.length]? = some (s.answer request) ∧
    s.Shows known ∧
    (s.isFrozen = true ↔ r.isFrozen = true ∨ .freeze ∈ before) ∧
    (∀ d, (∃ fault, (s.answer (.register d)).2 = .refused fault) ↔
      s.isFrozen = true ∨ ∃ e ∈ known, e.name = d.name) ∧
    (request ≠ .freeze → newlyRegistered request (s.answer request).2 = none →
      (s.answer request).1 = s) ∧
    (∀ d ∈ known, final.answer (.lookup d.name) = (final, .found (some d))) ∧
    (s.isFrozen = true → final.answer request = s.answer request) := by
  intro s known final
  have hentries : s.entries = known := r.entries_after before
  have hshows : s.Shows known := hentries ▸ s.shows_entries
  refine ⟨r.getElem?_answers before request later, hshows, r.isFrozen_after before, ?_,
    answer_eq_self, ?_, ?_⟩
  · intro d
    rw [← hentries, ← contains_iff]
    obtain ⟨hfrozen, h⟩ | ⟨-, htaken, h⟩ | ⟨hfrozen, hfree, t, h, -⟩ := s.answer_register_cases d
    · exact iff_of_true ⟨_, congrArg Prod.snd h⟩ (.inl hfrozen)
    · exact iff_of_true ⟨_, congrArg Prod.snd h⟩ (.inr htaken)
    · refine iff_of_false ?_ (by simp [hfrozen, hfree])
      rintro ⟨fault, hfault⟩
      rw [h] at hfault
      cases hfault
  · intro d hd
    have hmem : d ∈ final.entries := by
      rw [s.entries_after later, hentries]
      exact List.mem_append_left _ hd
    rw [final.shows_entries.lookup, find?_name final.nodup hmem]
  · intro hfrozen
    exact congrArg (·.answer request) (after_of_isFrozen hfrozen later)

/-- The second function of the name `greet` is refused, and so is a function that comes after the
registry is frozen; `greet` is the first one all the time. -/
theorem answers_of_write_once_greet :
    let greet : Descriptor := ⟨"greet", "Greets a player", false⟩
    let other : Descriptor := ⟨"greet", "", true⟩
    let late : Descriptor := ⟨"late", "", false⟩
    let before : List Request := [.register greet, .register other, .freeze]
    let s := empty.after before
    let final := s.after [.register other]
    (empty.answers (before ++ .register late :: [.register other]))[3]? =
      some (s.answer (.register late)) ∧
    s.Shows [greet] ∧
    (s.isFrozen = true ∧ ∃ fault, (s.answer (.register late)).2 = .refused fault) ∧
    (Request.register late ≠ .freeze ∧
      newlyRegistered (.register late) (s.answer (.register late)).2 = none ∧
      (s.answer (.register late)).1 = s) ∧
    (greet ∈ [greet] ∧ final.answer (.lookup "greet") = (final, .found (some greet))) ∧
    final.answer (.register late) = s.answer (.register late) := by
  intro greet other late before s final
  have hfrozen : s.isFrozen = true := rfl
  have hrequest : Request.register late ≠ .freeze := by simp
  have hnone : newlyRegistered (.register late) (s.answer (.register late)).2 = none := rfl
  have hgreet : greet ∈ [greet] := List.mem_singleton_self greet
  obtain ⟨hanswer, hshows, -, hrefused, hsame, hlookup, hstays⟩ :=
    answers_of_write_once empty before (.register late) [.register other]
  exact ⟨hanswer, hshows, ⟨hfrozen, (hrefused late).mpr (.inl hfrozen)⟩,
    ⟨hrequest, hnone, hsame hrequest hnone⟩, ⟨hgreet, hlookup greet hgreet⟩, hstays hfrozen⟩

end Registry

end LineScript
