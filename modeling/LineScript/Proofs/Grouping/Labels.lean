import LineScript.Proofs.Grouping.Acceptance
import LineScript.Proofs.Grouping.Region

/-!
# Labels that cannot be written

A number may be the name of a label, and then it is written out. Grouping has a complaint for every
list that it refuses, but none for a label whose number is too large to be written.
-/

namespace LineScript

namespace Grouping

open Traced

variable {s : Source} {ts pre post : List Token} {t u last : Token} {m : Mark}

/-- Grouping comes to a label whose number is too large to be written. -/
def MeetsLargeLabel (ts : List Token) : Prop :=
  ∃ pre t u post, ts = pre ++ t :: u :: post ∧ Viable pre ∧ t.value.isTooLarge = true ∧
    u.kind = .colon

/-- Only numbers are too large to be written. -/
def HasLargeNumbersOnly (ts : List Token) : Prop :=
  ∀ t ∈ ts, t.value.isTooLarge = true → t.kind = .number

/-! ### The first label of this kind -/

lemma Viable.of_append (h : Viable (pre ++ post)) : Viable pre := by
  obtain ⟨stack, hstack⟩ := viable_iff.mp h
  rw [scan_append] at hstack
  obtain ⟨stack', hpre, -⟩ := bind_eq_ok_iff.mp hstack
  exact viable_iff.mpr ⟨stack', hpre⟩

lemma marks_append_label (ht : t.kind = .number) (hu : u.kind = .colon) (pre post : List Token) :
    marks (pre ++ t :: u :: post) = marks pre ++ .label t :: marks post := by
  rw [marks_append (by simp [ht]) (by simp [ht]), marks, if_pos (by simp [ht, hu, canLabel])]

lemma not_isWritable_of_large_label (ht : t.kind = .number) (hlarge : t.value.isTooLarge = true)
    (hu : u.kind = .colon) : ¬∀ m ∈ marks (pre ++ t :: u :: post), m.IsWritable := by
  rw [marks_append_label ht hu]
  intro h
  have hsmall : t.value.isTooLarge = false :=
    h (.label t) (List.mem_append_right _ List.mem_cons_self)
  cases hlarge.symm.trans hsmall

/-- A label stands before a colon. -/
lemma exists_colon_of_label_mem_marks (h : .label t ∈ marks ts) :
    ∃ pre u post, ts = pre ++ t :: u :: post ∧ u.kind = .colon := by
  fun_induction marks ts with
  | case1 => cases h
  | case2 => cases List.mem_singleton.mp h
  | case3 v w ts hlabel ih =>
    have hw : w.kind = .colon := (by simpa using hlabel : canLabel v.kind = true ∧ _).2
    rcases List.mem_cons.mp h with hlabel | h
    · obtain rfl := Mark.label.inj hlabel
      exact ⟨[], w, ts, rfl, hw⟩
    · obtain ⟨pre, u, post, rfl, hu⟩ := ih h
      exact ⟨v :: w :: pre, u, post, rfl, hu⟩
  | case4 v w ts _ _ ih =>
    obtain ⟨pre, u, post, rfl, hu⟩ := ih ((List.mem_cons.mp h).resolve_left (by simp))
    exact ⟨v :: w :: pre, u, post, rfl, hu⟩
  | case5 v w ts _ _ ih =>
    obtain ⟨pre, u, post, hts, hu⟩ := ih ((List.mem_cons.mp h).resolve_left (by simp))
    exact ⟨v :: pre, u, post, by rw [hts]; rfl, hu⟩

/-- Only a label can be such that it cannot be written. -/
lemma exists_large_label (hnumbers : HasLargeNumbersOnly ts)
    (h : ¬∀ m ∈ marks ts, m.IsWritable) : ∃ pre t u post, ts = pre ++ t :: u :: post ∧
      t.value.isTooLarge = true ∧ u.kind = .colon := by
  obtain ⟨m, hm, hwritable⟩ : ∃ m ∈ marks ts, ¬m.IsWritable := by simpa using h
  cases m with
  | label t =>
    obtain ⟨pre, u, post, hts, hu⟩ := exists_colon_of_label_mem_marks hm
    exact ⟨pre, t, u, post, hts, by simpa [Mark.IsWritable] using hwritable, hu⟩
  | call t => exact absurd trivial hwritable
  | single t =>
    obtain ⟨hatom, hlarge⟩ : isAtom t.kind = false ∧ t.value.isTooLarge = true := by
      simpa [Mark.IsWritable] using hwritable
    rw [hnumbers t (token_mem_of_mem_marks hm) hlarge] at hatom
    cases hatom

/-- Where not all marks can be written, there is a first label that cannot. -/
lemma exists_first_label (hnumbers : HasLargeNumbersOnly ts)
    (h : ¬∀ m ∈ marks ts, m.IsWritable) : ∃ pre t u post, ts = pre ++ t :: u :: post ∧
      t.value.isTooLarge = true ∧ u.kind = .colon ∧ ∀ m ∈ marks pre, m.IsWritable := by
  induction hlength : ts.length using Nat.strongRecOn generalizing ts with
  | ind n ih =>
    obtain ⟨pre, t, u, post, rfl, hlarge, hu⟩ := exists_large_label hnumbers h
    by_cases hpre : ∀ m ∈ marks pre, m.IsWritable
    · exact ⟨pre, t, u, post, rfl, hlarge, hu, hpre⟩
    · have hshorter : pre.length < n := by simp [← hlength]
      obtain ⟨pre', t', u', post', rfl, hfirst⟩ :=
        ih pre.length hshorter (fun v hv => hnumbers v (List.mem_append_left _ hv)) hpre rfl
      exact ⟨pre', t', u', post' ++ t :: u :: post, by simp, hfirst⟩

/-! ### Grouping up to this label -/

lemma regions_of_first_label (hlast : last.kind = .eof)
    (heof : ∀ v ∈ pre ++ t :: u :: post, v.kind ≠ .eof) (ht : t.kind = .number)
    (hlarge : t.value.isTooLarge = true) (hu : u.kind = .colon)
    (hpre : ∀ m ∈ marks pre, m.IsWritable) :
    match scan [] none pre with
    | .ok _ => s.regions (pre ++ t :: u :: post ++ [last]) = .error (.numeral .tooLarge)
    | .error v => s.regions (pre ++ t :: u :: post ++ [last]) =
        s.complain (.unexpectedToken v.value.plain) v.place := by
  have hagrees : Agrees s .start (marks pre) (scan [] none pre) :=
    agrees_marks (p := .start) (fun v hv => heof v (List.mem_append_left _ hv)) hpre
      fun v _ => by simp [StandsAlone]
  rw [Source.regions_append_end heof hlast, marks_append_label ht hu, List.foldlM_append]
  cases hscan : scan [] none pre with
  | error v =>
    rw [hscan] at hagrees
    have herror : (marks pre).foldlM s.placeMark .start =
      s.complain (.unexpectedToken v.value.plain) v.place := hagrees
    rw [herror]
    rfl
  | ok stack =>
    rw [hscan] at hagrees
    obtain ⟨q, hq, -⟩ := hagrees
    have hlabel : s.placeMark q (.label t) = .error (.numeral .tooLarge) := by
      simp only [Source.placeMark, Source.plain, Value.plain?, hlarge, if_true]
      rfl
    rw [hq, ok_bind, List.foldlM_cons, hlabel]
    rfl

/-- A list that is refused before its first label that cannot be written meets none. -/
lemma not_meetsLargeLabel_of_first_label (hnumbers : HasLargeNumbersOnly (pre ++ t :: u :: post))
    (hlarge : t.value.isTooLarge = true) (hpre : ∀ m ∈ marks pre, m.IsWritable)
    (hviable : ¬Viable pre) : ¬MeetsLargeLabel (pre ++ t :: u :: post) := by
  rintro ⟨pre', t', u', post', hts, hviable', hlarge', hu'⟩
  have ht : t.kind = .number := hnumbers t (by simp) hlarge
  have ht' : t'.kind = .number := hnumbers t' (by simp [hts]) hlarge'
  rcases List.append_eq_append_iff.mp hts with ⟨a, rfl, -⟩ | ⟨a, rfl, ha⟩
  · exact hviable hviable'.of_append
  · rcases a with _ | ⟨v, _ | ⟨w, a⟩⟩
    · exact hviable (by simpa using hviable')
    · obtain ⟨-, rfl, -⟩ : t' = v ∧ u' = t ∧ post' = u :: post := by simpa using ha
      cases ht.symm.trans hu'
    · obtain ⟨rfl, rfl, -⟩ : t' = v ∧ u' = w ∧ _ := by simpa using ha
      exact not_isWritable_of_large_label ht' hlarge' hu' hpre

/-- A list is grouped, or there is a diagnostic, unless a label is met that cannot be written. -/
theorem regions_cases (s : Source) (hlast : last.kind = .eof) (heof : ∀ t ∈ ts, t.kind ≠ .eof)
    (hnumbers : HasLargeNumbersOnly ts) :
    (¬MeetsLargeLabel ts ∧ ((∃ regions, s.regions (ts ++ [last]) = .ok regions) ∨
      ∃ d, s.regions (ts ++ [last]) = .error (.diagnostic d))) ∨
    (MeetsLargeLabel ts ∧ s.regions (ts ++ [last]) = .error (.numeral .tooLarge)) := by
  by_cases hwritable : ∀ m ∈ marks ts, m.IsWritable
  · refine Or.inl ⟨?_, ?_⟩
    · rintro ⟨pre, t, u, post, rfl, -, hlarge, hu⟩
      have ht := hnumbers t (by simp) hlarge
      exact not_isWritable_of_large_label ht hlarge hu hwritable
    · have hend := agreesAtEnd_of_isWritable (s := s) hlast heof hwritable
      cases hscan : scan [] none ts with
      | error v =>
        rw [hscan] at hend
        exact Or.inr ⟨_, hend⟩
      | ok stack =>
        rw [hscan] at hend
        cases stack with
        | nil => exact Or.inl hend
        | cons x stack => exact Or.inr ⟨_, hend⟩
  · obtain ⟨pre, t, u, post, rfl, hlarge, hu, hpre⟩ := exists_first_label hnumbers hwritable
    have ht := hnumbers t (by simp) hlarge
    have hregions := regions_of_first_label (s := s) hlast heof ht hlarge hu hpre
    cases hscan : scan [] none pre with
    | ok stack =>
      rw [hscan] at hregions
      exact Or.inr ⟨⟨pre, t, u, post, rfl, viable_iff.mpr ⟨stack, hscan⟩, hlarge, hu⟩, hregions⟩
    | error v =>
      rw [hscan] at hregions
      have hviable : ¬Viable pre := by
        rw [viable_iff]
        rintro ⟨stack, hstack⟩
        cases hscan.symm.trans hstack
      exact Or.inl ⟨not_meetsLargeLabel_of_first_label hnumbers hlarge hpre hviable,
        Or.inr ⟨_, hregions⟩⟩

/-- The end of a script is no colon. -/
lemma meetsLargeLabel_append_end (hlast : last.kind = .eof) :
    MeetsLargeLabel (ts ++ [last]) ↔ MeetsLargeLabel ts := by
  constructor
  · rintro ⟨pre, t, u, post, hts, hviable, hlarge, hu⟩
    rcases List.eq_nil_or_concat post with rfl | ⟨post, v, rfl⟩
    · have heq : last = u := by simpa using congrArg List.getLast? hts
      cases hlast.symm.trans (heq ▸ hu)
    · have heq : ts ++ [last] = (pre ++ t :: u :: post) ++ [v] := by simpa using hts
      exact ⟨pre, t, u, post, (List.append_inj' heq rfl).1, hviable, hlarge, hu⟩
  · rintro ⟨pre, t, u, post, rfl, h⟩
    exact ⟨pre, t, u, post ++ [last], by simp, h⟩

end Grouping

end LineScript
