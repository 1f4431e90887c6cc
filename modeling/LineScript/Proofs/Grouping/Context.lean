import LineScript.Proofs.Grouping.Place
import LineScript.Proofs.Grouping.Run

/-!
# Runs within a context

What a run does with some tokens does not depend on what came before them: earlier regions and
groups that are open around them stay as they are. Only the end of a line tells the difference,
as it ends a region where no group is open.
-/

namespace LineScript

namespace Grouping

/-- Groups whose current list has begun at a place, at the latest. -/
def touchGroups (place : Location) : List OpenGroup → List OpenGroup
  | [] => []
  | g :: gs => { g with start := g.start.or (some place) } :: gs

/-- Groups whose current list has begun. -/
def HaveBegun (gs : List OpenGroup) : Prop :=
  ∀ g ∈ gs.head?, g.start ≠ none

lemma touchGroups_of_haveBegun {gs : List OpenGroup} (h : HaveBegun gs) (place : Location) :
    touchGroups place gs = gs := by
  cases gs with
  | nil => rfl
  | cons g gs =>
    obtain ⟨start, hstart⟩ := Option.ne_none_iff_exists'.mp (h g rfl)
    obtain ⟨opener, name, closer, done, begun, outer⟩ := g
    obtain rfl : begun = some start := hstart
    rfl

lemma haveBegun_touchGroups (place : Location) (gs : List OpenGroup) :
    HaveBegun (touchGroups place gs) := by
  cases gs with
  | nil => simp [HaveBegun, touchGroups]
  | cons g gs =>
    intro g' hg'
    obtain rfl : { g with start := g.start.or (some place) } = g' := Option.some.inj hg'
    cases g.start <;> simp

namespace Progress

/-- The progress after regions and within groups that came before. -/
def within (p : Progress) (regions : List Tree) (groups : List OpenGroup) : Progress :=
  ⟨p.regions ++ regions, p.groups ++ groups, p.siblings⟩

variable {p q : Progress} {regions : List Tree} {gs : List OpenGroup} {t : Token}

/-- What reaches the groups around, if no other group is open. -/
def reach (p : Progress) (place : Location) (gs : List OpenGroup) : List OpenGroup :=
  if p.groups.isEmpty then touchGroups place gs else gs

lemma touch_within (place : Location) :
    (p.within regions gs).touch place = (p.touch place).within regions (p.reach place gs) := by
  obtain ⟨rs, groups, siblings⟩ := p
  cases groups with
  | nil => cases gs <;> rfl
  | cons g groups => rfl

lemma push_within (u : Tree) :
    (p.within regions gs).push u = (p.push u).within regions (p.reach u.place gs) := by
  rw [push, touch_within]
  rfl

lemma openGroup_within (name : String) (closer : TokenKind) :
    (p.within regions gs).openGroup t name closer =
      (p.openGroup t name closer).within regions (p.reach t.place gs) := by
  rw [openGroup, touch_within]
  rfl

lemma endRegion_within : (p.within regions gs).endRegion = p.endRegion.within regions gs := by
  obtain ⟨rs, groups, siblings⟩ := p
  cases siblings <;> rfl

lemma separate?_within (h : p.separate? t = some q) :
    (p.within regions gs).separate? t = some (q.within regions gs) := by
  obtain ⟨rs, groups, siblings⟩ := p
  cases groups with
  | nil => cases h
  | cons g groups =>
    obtain rfl := Option.some.inj h
    rfl

lemma close?_within (h : p.close? t = some q) :
    (p.within regions gs).close? t = some (q.within regions gs) := by
  obtain ⟨rs, groups, siblings⟩ := p
  cases groups with
  | nil => cases h
  | cons g groups =>
    simp only [close?, within, List.cons_append] at h ⊢
    split_ifs at h ⊢
    all_goals
      obtain rfl := Option.some.inj h
      rfl

lemma groups_ne_nil_of_separate? (h : p.separate? t = some q) : p.groups ≠ [] := by
  rintro hnil
  simp [separate?, hnil] at h

lemma groups_ne_nil_of_close? (h : p.close? t = some q) : p.groups ≠ [] := by
  rintro hnil
  simp [close?, hnil] at h

lemma reach_of_groups_ne_nil (h : p.groups ≠ []) (place : Location) : p.reach place gs = gs := by
  simp [reach, h]

end Progress

/-! ### One step -/

/-- The mark ends a line. -/
def Mark.endsLine : Mark → Bool
  | .single t => t.kind = .newline
  | _ => false

variable {s : Source} {p q : Progress} {regions : List Tree} {gs : List OpenGroup} {m : Mark}

lemma place_atom (registry : Registry) (siblings : List Tree) (t : Token) :
    (atom registry siblings t).place = t.place := by
  unfold atom
  split <;> (try split) <;> rfl

lemma place_within {t : Token} (h : s.place p t = .ok q)
    (hline : t.kind = .newline → p.groups = [] → gs = []) :
    s.place (p.within regions gs) t = .ok (q.within regions (p.reach t.place gs)) := by
  rw [Source.place_eq_ok_iff]
  rcases Source.place_eq_ok_iff.mp h with ⟨hkind, rfl⟩ | ⟨hkind, hq⟩ | ⟨hkind, hq⟩ |
    ⟨closer, name, hkind, rfl⟩ | ⟨hkind, rfl⟩
  · refine Or.inl ⟨hkind, ?_⟩
    -- no other token asks whether there are groups around
    by_cases hgroups : p.groups = []
    · obtain rfl := hline hkind hgroups
      have hnone : (p.within regions []).groups = [] := by simp [Progress.within, hgroups]
      simp only [hgroups, hnone, List.isEmpty_nil, if_true, Progress.endRegion_within,
        Progress.reach, touchGroups]
    · have hsome : (p.within regions gs).groups ≠ [] := by simp [Progress.within, hgroups]
      rw [if_neg (by simpa using hgroups), if_neg (by simpa using hsome), Progress.touch_within]
  · rw [Progress.reach_of_groups_ne_nil (Progress.groups_ne_nil_of_separate? hq)]
    exact Or.inr (Or.inl ⟨hkind, Progress.separate?_within hq⟩)
  · rw [Progress.reach_of_groups_ne_nil (Progress.groups_ne_nil_of_close? hq)]
    exact Or.inr (Or.inr (Or.inl ⟨hkind, Progress.close?_within hq⟩))
  · exact Or.inr (Or.inr (Or.inr (Or.inl
      ⟨closer, name, hkind, (Progress.openGroup_within ..).symm⟩)))
  · refine Or.inr (Or.inr (Or.inr (Or.inr ⟨hkind, ?_⟩)))
    rw [← place_atom s.registry p.siblings t, ← Progress.push_within]
    rfl

/-- A mark does the same within a context, unless it ends a line where no group is open. -/
lemma placeMark_within (h : s.placeMark p m = .ok q)
    (hline : m.endsLine = true → p.groups = [] → gs = []) :
    s.placeMark (p.within regions gs) m =
      .ok (q.within regions (p.reach m.token.place gs)) := by
  cases m with
  | label t =>
    obtain ⟨text, htext, hq⟩ := Traced.bind_eq_ok_iff.mp h
    obtain rfl := Except.ok.inj hq
    rw [Source.placeMark, htext, Traced.ok_bind, Progress.push_within]
    rfl
  | call t =>
    obtain rfl := Except.ok.inj h
    exact congrArg Except.ok (Progress.openGroup_within ..)
  | single t => exact place_within h (by simpa [Mark.endsLine] using hline)

/-! ### Runs -/

/-- Behind other regions a run finds its own. -/
lemma foldlM_behind {ms : List Mark} (h : ms.foldlM s.placeMark p = .ok q) (regions : List Tree) :
    ms.foldlM s.placeMark (p.within regions []) = .ok (q.within regions []) := by
  induction ms generalizing p with
  | nil =>
    obtain rfl : p = q := Except.ok.inj h
    rfl
  | cons m ms ih =>
    obtain ⟨p', hp', h⟩ := Traced.bind_eq_ok_iff.mp h
    have hstep : s.placeMark (p.within regions []) m =
        .ok (p'.within regions (p.reach m.token.place [])) := placeMark_within hp' fun _ _ => rfl
    have hreach : p.reach m.token.place [] = [] := by simp [Progress.reach, touchGroups]
    rw [List.foldlM_cons, hstep, hreach, Traced.ok_bind]
    exact ih h

/-- The end of a line between two scripts leaves the regions of both as they are. -/
theorem regions_append {ts us : List Token} {newline last last' : Token} {rs rs' : List Tree}
    (hnewline : newline.kind = .newline) (hlast : last.kind = .eof) (hlast' : last'.kind = .eof)
    (hts : ∀ t ∈ ts, t.kind ≠ .eof) (hus : ∀ t ∈ us, t.kind ≠ .eof)
    (hrs : s.regions (ts ++ [last]) = .ok rs) (hrs' : s.regions (us ++ [last']) = .ok rs') :
    s.regions (ts ++ newline :: us ++ [last']) = .ok (rs ++ rs') := by
  obtain ⟨q, hq, hgroups, rfl⟩ := (Source.regions_eq_ok_iff hts hlast).mp hrs
  obtain ⟨q', hq', hgroups', rfl⟩ := (Source.regions_eq_ok_iff hus hlast').mp hrs'
  have hall : ∀ t ∈ ts ++ newline :: us, t.kind ≠ .eof := by
    simp only [List.forall_mem_append, List.forall_mem_cons]
    exact ⟨hts, by simp [hnewline], hus⟩
  have hmarks : marks (ts ++ newline :: us) = marks ts ++ .single newline :: marks us :=
    marks_append_cons (by simp [hnewline]) (by simp [hnewline]) (by simp [hnewline, canLabel]) ts us
  have hend : s.placeMark q (.single newline) =
      .ok (Progress.start.within q.endRegion.regions []) := by
    rw [Source.placeMark, Source.place_of_newline hnewline, hgroups, List.isEmpty_nil, if_pos rfl]
    obtain ⟨regions, groups, siblings⟩ := q
    obtain rfl : groups = [] := hgroups
    cases siblings <;> rfl
  rw [Source.regions_eq_ok_iff hall hlast']
  refine ⟨q'.within q.endRegion.regions [], ?_, ?_, ?_⟩
  · rw [hmarks, List.foldlM_append, hq, Traced.ok_bind, List.foldlM_cons, hend, Traced.ok_bind]
    exact foldlM_behind hq' _
  · simp [Progress.within, hgroups']
  · rw [Progress.endRegion_within]
    simp [Progress.within]

end Grouping

end LineScript
