import LineScript.Proofs.Grouping.Acceptance
import LineScript.Proofs.Grouping.Composition
import LineScript.Proofs.Grouping.Weight
import LineScript.Registry.Builtin

/-!
# Regions do not depend on ends of lines within groups

One token at a time, the ends of lines within groups are taken out of a script. Behind such an end
everything goes on as before it, but for its place, which the current list may begin at: this is
forgotten one mark later, unless the mark closes the group where it was opened. So the regions are
the same, but for their places, where no line tears two tokens apart; and where one does, a script
that is grouped with the line is not grouped to the same regions without it.
-/

namespace LineScript

namespace Grouping

open Traced

variable {s : Source} {p p' q q' : Progress} {m : Mark} {ms : List Mark}
  {t newline last : Token} {ts pre post : List Token} {place : Location}

/-! ### How many groups are open -/

/-- A token changes the number of open groups as its kind says. -/
lemma length_groups_place (h : s.place p t = .ok q) :
    q.groups.length = openBehind p.groups.length t := by
  have hleads := leads_place h
  simp only [Leads, openBehind, List.countP_singleton] at hleads ⊢
  cases hopener : isOpener t.kind with
  | true =>
    have hcloser : isCloser t.kind = false := by
      by_contra hcloser
      rw [isOpener_eq_false_of_isCloser (by simpa using hcloser)] at hopener
      cases hopener
    simp only [hopener, hcloser, if_true, Bool.false_eq_true, if_false] at hleads ⊢
    omega
  | false =>
    simp only [hopener, Bool.false_eq_true, if_false] at hleads ⊢
    split_ifs at hleads ⊢ <;> omega

lemma length_groups_foldlM (h : (marks ts).foldlM s.placeMark p = .ok q) :
    q.groups.length = depth p.groups.length ts := by
  fun_induction marks ts generalizing p with
  | case1 =>
    obtain rfl := Except.ok.inj h
    rfl
  | case2 t =>
    obtain ⟨p', hp', h⟩ := bind_eq_ok_iff.mp h
    obtain rfl := Except.ok.inj h
    exact length_groups_place hp'
  | case3 t u ts hmark ih =>
    obtain ⟨hcan, hcolon⟩ : canLabel t.kind = true ∧ u.kind = .colon := by simpa using hmark
    obtain ⟨p', hp', h⟩ := bind_eq_ok_iff.mp h
    obtain ⟨text, -, hp'⟩ := bind_eq_ok_iff.mp hp'
    obtain rfl := Except.ok.inj hp'
    have hcolon' : openBehind p.groups.length u = p.groups.length :=
      openBehind_of_other (by rw [hcolon]; rfl) (by rw [hcolon]; rfl) _
    rw [ih h, Progress.push, Progress.length_groups_touch, depth, depth, List.foldl_cons,
      List.foldl_cons, openBehind_of_isAtom (isAtom_of_canLabel hcan), hcolon']
  | case4 t u ts hlabel hmark ih =>
    obtain ⟨hword, hparen⟩ : t.kind = .word ∧ u.kind = .leftParen := by simpa using hmark
    obtain ⟨p', hp', h⟩ := bind_eq_ok_iff.mp h
    obtain rfl := Except.ok.inj hp'
    have hword' : openBehind p.groups.length t = p.groups.length :=
      openBehind_of_isAtom (by rw [hword]; rfl) _
    have hparen' : openBehind p.groups.length u = p.groups.length + 1 := by
      simp [openBehind, hparen, isOpener, opens?]
    rw [ih h, Progress.openGroup, List.length_cons, Progress.length_groups_touch, depth, depth,
      List.foldl_cons, List.foldl_cons, hword', hparen']
  | case5 t u ts hlabel hcall ih =>
    obtain ⟨p', hp', h⟩ := bind_eq_ok_iff.mp h
    rw [ih h, length_groups_place hp']
    rfl

/-! ### Groups without an argument list -/

/-- The group would be closed where it was opened. -/
def OpenGroup.isFresh (g : OpenGroup) : Bool := g.done.isEmpty && g.start.isNone

/-- The mark opens a group. -/
def Mark.opens : Mark → Bool
  | .label _ => false
  | .call _ => true
  | .single t => isOpener t.kind

lemma isFresh_touch (h : ∀ g ∈ p.groups.tail, g.isFresh = false) (place : Location) :
    ∀ g ∈ (p.touch place).groups, g.isFresh = false := by
  obtain ⟨regions, groups, siblings⟩ := p
  cases groups with
  | nil => simp [Progress.touch]
  | cons g gs =>
    have hhead : OpenGroup.isFresh { g with start := g.start.or (some place) } = false := by
      cases hstart : g.start <;> simp [OpenGroup.isFresh]
    exact List.forall_mem_cons.mpr ⟨hhead, h⟩

/-- No group is fresh but one that has just been opened. -/
lemma isFresh_placeMark (h : ∀ g ∈ p.groups.tail, g.isFresh = false)
    (hq : s.placeMark p m = .ok q) : (∀ g ∈ q.groups.tail, g.isFresh = false) ∧
      (m.opens = false → ∀ g ∈ q.groups, g.isFresh = false) := by
  have hall : (∀ g ∈ q.groups, g.isFresh = false) → (∀ g ∈ q.groups.tail, g.isFresh = false) ∧
      (m.opens = false → ∀ g ∈ q.groups, g.isFresh = false) := fun hq =>
    ⟨fun g hg => hq g (List.mem_of_mem_tail hg), fun _ => hq⟩
  cases m with
  | label t =>
    obtain ⟨text, -, hq⟩ := bind_eq_ok_iff.mp hq
    obtain rfl := Except.ok.inj hq
    exact hall (isFresh_touch h t.place)
  | call t =>
    obtain rfl := Except.ok.inj hq
    exact ⟨isFresh_touch h t.place, by simp [Mark.opens]⟩
  | single t =>
    rcases Source.place_cases hq with ⟨hkind, rfl⟩ | ⟨hkind, hq⟩ | ⟨hkind, hq⟩ |
      ⟨closer, name, hkind, rfl⟩ | ⟨hkind, rfl⟩
    · apply hall
      split_ifs with hgroups
      · rw [Progress.groups_endRegion, List.isEmpty_iff.mp hgroups]
        simp
      · exact isFresh_touch h t.place
    · obtain ⟨regions, groups, siblings⟩ := p
      cases groups with
      | nil => cases hq
      | cons g gs =>
        obtain rfl := Option.some.inj hq
        exact hall (List.forall_mem_cons.mpr ⟨rfl, h⟩)
    · obtain ⟨regions, groups, siblings⟩ := p
      cases groups with
      | nil => cases hq
      | cons g gs =>
        simp only [Progress.close?] at hq
        split_ifs at hq
        all_goals
          obtain rfl := Option.some.inj hq
          exact hall h
    · exact ⟨isFresh_touch h t.place, by simp [Mark.opens, isOpener, hkind]⟩
    · exact hall (isFresh_touch h _)

lemma isFresh_foldlM (h : ∀ g ∈ p.groups.tail, g.isFresh = false)
    (hq : (marks ts).foldlM s.placeMark p = .ok q) (ht : t ∈ ts.getLast?)
    (hopener : isOpener t.kind = false) : ∀ g ∈ q.groups, g.isFresh = false := by
  fun_induction marks ts generalizing p with
  | case1 => cases ht
  | case2 u =>
    obtain ⟨p', hp', hq⟩ := bind_eq_ok_iff.mp hq
    obtain rfl := Except.ok.inj hq
    obtain rfl := Option.some.inj ht
    exact (isFresh_placeMark h hp').2 hopener
  | case3 u v ts hmark ih =>
    obtain ⟨p', hp', hq⟩ := bind_eq_ok_iff.mp hq
    obtain ⟨htail, hall⟩ := isFresh_placeMark h hp'
    cases ts with
    | nil =>
      obtain rfl := Except.ok.inj hq
      exact hall rfl
    | cons w ts => exact ih htail hq (by simpa using ht)
  | case4 u v ts hlabel hmark ih =>
    obtain ⟨-, hparen⟩ : u.kind = .word ∧ v.kind = .leftParen := by simpa using hmark
    obtain ⟨p', hp', hq⟩ := bind_eq_ok_iff.mp hq
    obtain ⟨htail, -⟩ := isFresh_placeMark h hp'
    cases ts with
    | nil =>
      obtain rfl := Option.some.inj ht
      simp [hparen, isOpener, opens?] at hopener
    | cons w ts => exact ih htail hq (by simpa using ht)
  | case5 u v ts hlabel hcall ih =>
    obtain ⟨p', hp', hq⟩ := bind_eq_ok_iff.mp hq
    exact ih (isFresh_placeMark h hp').1 hq (by simpa using ht)

/-! ### Progress without places -/

/-- The progress with every place forgotten. -/
def Progress.unplaced (p : Progress) : Progress := p.relocate fun _ => .unknown

lemma unplaced_foldlM {tokens : List Token} (hp : IsSound (Bears s.registry tokens) p)
    (hp' : IsSound (Bears s.registry tokens) p') (hms : ∀ m ∈ ms, m.token ∈ tokens)
    (hq : ms.foldlM s.placeMark p = .ok q) (hq' : ms.foldlM s.placeMark p' = .ok q')
    (h : p'.unplaced = p.unplaced) : q'.unplaced = q.unplaced := by
  have hsame : s.registry = s.registry := rfl
  have hmoved : _ = Except.ok q.unplaced := foldlM_relocate hsame hp hms hq
  have hmoved' : _ = Except.ok q'.unplaced := foldlM_relocate hsame hp' hms hq'
  rw [Progress.unplaced, Progress.unplaced] at h
  rw [h] at hmoved'
  exact Except.ok.inj (hmoved'.symm.trans hmoved)

/-- Where a list begins is forgotten. -/
lemma unplaced_listOf {siblings : List Tree} (h : ∀ t ∈ siblings, t ≠ .hole) (place : Location) :
    (listOf place siblings).relocate (fun _ => .unknown) =
      (listOf .unknown siblings).relocate fun _ => .unknown := by
  rw [← listOf_relocate h place, ← listOf_relocate h .unknown]

lemma unplaced_separate?_touch (hsiblings : ∀ u ∈ p.siblings, u ≠ .hole)
    (hq : p.separate? t = some q) (hq' : (p.touch place).separate? t = some q') :
    q'.unplaced = q.unplaced := by
  obtain ⟨regions, groups, siblings⟩ := p
  cases groups with
  | nil => cases hq
  | cons g gs =>
    obtain rfl := Option.some.inj hq
    obtain rfl := Option.some.inj hq'
    have hlist := unplaced_listOf hsiblings
    simp [Progress.unplaced, Progress.relocate, OpenGroup.relocate, hlist]

/-- A group that is not closed where it was opened has an argument list more in either case. -/
lemma unplaced_close?_touch (hsiblings : ∀ u ∈ p.siblings, u ≠ .hole)
    (hfresh : ∀ g ∈ p.groups, g.isFresh = false) (hq : p.close? t = some q)
    (hq' : (p.touch place).close? t = some q') : q'.unplaced = q.unplaced := by
  obtain ⟨regions, groups, siblings⟩ := p
  cases groups with
  | nil => cases hq
  | cons g gs =>
    have hlist := unplaced_listOf hsiblings
    have hg : (g.done.isEmpty && g.start.isNone) = false := hfresh g List.mem_cons_self
    have hbegun : (g.done.isEmpty && (g.start.or (some place)).isNone) = false := by
      cases g.start <;> simp
    simp only [Progress.close?, Progress.touch, hg, hbegun, Bool.false_eq_true, if_false] at hq hq'
    split_ifs at hq hq'
    obtain rfl := Option.some.inj hq
    obtain rfl := Option.some.inj hq'
    simp [Progress.unplaced, Progress.relocate, hlist]

/-- The mark closes a group. -/
def Mark.closes : Mark → Bool
  | .single t => isCloser t.kind
  | _ => false

/-- One mark behind the end of a line within a group, its place is forgotten, unless the mark closes
the group where it was opened. -/
lemma unplaced_placeMark_touch (hsiblings : ∀ u ∈ p.siblings, u ≠ .hole) (hgroups : p.groups ≠ [])
    (hfresh : m.closes = true → ∀ g ∈ p.groups, g.isFresh = false)
    (hq : s.placeMark p m = .ok q) (hq' : s.placeMark (p.touch place) m = .ok q') :
    q'.unplaced = q.unplaced := by
  obtain ⟨regions, groups, siblings⟩ := p
  obtain ⟨⟨opener, name, closer, done, start, outer⟩, gs, rfl⟩ :=
    List.exists_cons_of_ne_nil hgroups
  cases start with
  | some start =>
    -- The list has begun before the end of the line.
    obtain rfl := Except.ok.inj (hq.symm.trans hq')
    rfl
  | none =>
    cases m with
    | label t =>
      obtain ⟨text, htext, hq⟩ := bind_eq_ok_iff.mp hq
      obtain rfl := Except.ok.inj hq
      rw [Source.placeMark, htext] at hq'
      obtain rfl := Except.ok.inj hq'
      rfl
    | call t =>
      obtain rfl := Except.ok.inj hq
      obtain rfl := Except.ok.inj hq'
      rfl
    | single t =>
      rw [Source.placeMark] at hq'
      rcases Source.place_cases hq with ⟨hkind, rfl⟩ | ⟨hkind, hq⟩ | ⟨hkind, hq⟩ |
        ⟨kind, text, hkind, rfl⟩ | ⟨hkind, rfl⟩
      · rw [Source.place_of_newline hkind] at hq'
        obtain rfl := Except.ok.inj hq'
        rfl
      · rw [Source.place_of_comma hkind, Source.orUnexpected_eq_ok_iff] at hq'
        exact unplaced_separate?_touch hsiblings hq hq'
      · rw [Source.place_of_isCloser hkind, Source.orUnexpected_eq_ok_iff] at hq'
        exact unplaced_close?_touch hsiblings (hfresh hkind) hq hq'
      · rw [Source.place_of_opens hkind] at hq'
        obtain rfl := Except.ok.inj hq'
        rfl
      · rw [Source.place_of_isAtom hkind] at hq'
        obtain rfl := Except.ok.inj hq'
        rfl

/-- The place of such an end of a line is forgotten in the end. -/
lemma unplaced_foldlM_touch {tokens : List Token} (hp : IsSound (Bears s.registry tokens) p)
    (hms : ∀ m ∈ ms, m.token ∈ tokens) (hgroups : p.groups ≠ [])
    (hfresh : ∀ m ∈ ms.head?, m.closes = true → ∀ g ∈ p.groups, g.isFresh = false)
    (hq : ms.foldlM s.placeMark p = .ok q) (hq' : ms.foldlM s.placeMark (p.touch place) = .ok q')
    (hend : q.groups = []) : q'.unplaced = q.unplaced := by
  cases ms with
  | nil =>
    obtain rfl := Except.ok.inj hq
    exact absurd hend hgroups
  | cons m ms =>
    obtain ⟨hm, hms⟩ := List.forall_mem_cons.mp hms
    obtain ⟨r, hr, hq⟩ := bind_eq_ok_iff.mp hq
    obtain ⟨r', hr', hq'⟩ := bind_eq_ok_iff.mp hq'
    have hsiblings : ∀ u ∈ p.siblings, u ≠ .hole := fun u hu => (hp.siblings u hu).ne_hole
    have hstep : r'.unplaced = r.unplaced :=
      unplaced_placeMark_touch hsiblings hgroups (hfresh m rfl) hr hr'
    exact unplaced_foldlM (hp.placeMark hm hr) ((hp.touch place).placeMark hm hr') hms hq hq' hstep

/-! ### Regions -/

/-- Two runs that end alike find the same regions. -/
lemma regions_eq_of_unplaced_eq (hq : ∀ t ∈ q.siblings, t ≠ .hole)
    (hq' : ∀ t ∈ q'.siblings, t ≠ .hole) (h : q'.unplaced = q.unplaced) :
    q'.endRegion.regions.reverse.map Tree.unplaced =
      q.endRegion.regions.reverse.map Tree.unplaced := by
  have hend : (q'.endRegion).relocate (fun _ => .unknown) =
      (q.endRegion).relocate fun _ => .unknown := by
    rw [← Progress.endRegion_relocate hq, ← Progress.endRegion_relocate hq']
    exact congrArg Progress.endRegion h
  have hregions : q'.endRegion.regions.map (Tree.relocate fun _ => .unknown) =
      q.endRegion.regions.map (Tree.relocate fun _ => .unknown) := congrArg Progress.regions hend
  rw [Tree.unplaced_eq, List.map_reverse, List.map_reverse, hregions]

namespace Source

variable {rs : List Tree}

/-- The marks lead from there to the end of a script with these regions, but for their places. -/
def Yields (s : Source) (p : Progress) (ms : List Mark) (rs : List Tree) : Prop :=
  ∃ q, ms.foldlM s.placeMark p = .ok q ∧ q.groups = [] ∧
    rs = q.endRegion.regions.reverse.map Tree.unplaced

lemma Yields.of_openings_eq (h : s.Yields p ms rs) (hopenings : p'.openings = p.openings)
    (hsame : ∀ q q', ms.foldlM s.placeMark p = .ok q → ms.foldlM s.placeMark p' = .ok q' →
      q.groups = [] → q'.groups = [] → q'.endRegion.regions.reverse.map Tree.unplaced =
        q.endRegion.regions.reverse.map Tree.unplaced) : s.Yields p' ms rs := by
  obtain ⟨q, hq, hend, rfl⟩ := h
  obtain ⟨q', hq', hopenings'⟩ := exists_foldlM_placeMark hopenings hq
  have hend' : q'.groups = [] := by
    rw [← openings_eq_nil_iff, hopenings', openings_eq_nil_iff, hend]
  exact ⟨q', hq', hend', (hsame q q' hq hq' hend hend').symm⟩

/-- The regions of tokens without their places, if there are any. -/
def grouped? (s : Source) (tokens : List Token) : Option (List Tree) :=
  (s.regions tokens).toOption.map (List.map Tree.unplaced)

lemma grouped?_eq_some_iff (heof : ∀ t ∈ ts, t.kind ≠ .eof) (hlast : last.kind = .eof) :
    s.grouped? (ts ++ [last]) = some rs ↔ s.Yields .start (marks ts) rs := by
  constructor
  · intro h
    obtain ⟨regions, hregions, rfl⟩ := Option.map_eq_some_iff.mp h
    obtain ⟨q, hq, hgroups, rfl⟩ :=
      (regions_eq_ok_iff heof hlast).mp (eq_ok_of_toOption hregions)
    exact ⟨q, hq, hgroups, rfl⟩
  · rintro ⟨q, hq, hgroups, rfl⟩
    rw [grouped?, (regions_eq_ok_iff heof hlast).mpr ⟨q, hq, hgroups, rfl⟩]
    rfl

end Source

/-- The end of a line within a group changes nothing about what the marks behind it lead to, unless
the first of them closes the group where it was opened. -/
lemma yields_touch_iff {rs : List Tree} {tokens : List Token}
    (hp : IsSound (Bears s.registry tokens) p) (hms : ∀ m ∈ ms, m.token ∈ tokens)
    (hgroups : p.groups ≠ [])
    (hfresh : ∀ m ∈ ms.head?, m.closes = true → ∀ g ∈ p.groups, g.isFresh = false)
    (place : Location) : s.Yields (p.touch place) ms rs ↔ s.Yields p ms rs := by
  have hsame : ∀ q q', ms.foldlM s.placeMark p = .ok q →
      ms.foldlM s.placeMark (p.touch place) = .ok q' → q.groups = [] →
      q'.endRegion.regions.reverse.map Tree.unplaced =
        q.endRegion.regions.reverse.map Tree.unplaced := by
    intro q q' hq hq' hend
    exact regions_eq_of_unplaced_eq (fun u hu => ((hp.foldlM hms hq).siblings u hu).ne_hole)
      (fun u hu => (((hp.touch place).foldlM hms hq').siblings u hu).ne_hole)
      (unplaced_foldlM_touch hp hms hgroups hfresh hq hq' hend)
  constructor
  · exact fun h => h.of_openings_eq (openings_touch p place).symm
      fun q' q hq' hq _ hend => (hsame q q' hq hq' hend).symm
  · exact fun h => h.of_openings_eq (openings_touch p place)
      fun q q' hq hq' hend _ => hsame q q' hq hq' hend

/-- Behind tokens that the next one does not close a group with, no group is fresh. -/
lemma isFresh_of_looksAt (hp : (marks pre).foldlM s.placeMark .start = .ok p) (hne : pre ≠ [])
    (hlook : ∀ t ∈ pre.getLast?, ∀ u ∈ post.head?, looksAt t u = false) :
    ∀ m ∈ (marks post).head?, m.closes = true → ∀ g ∈ p.groups, g.isFresh = false := by
  intro m hm hcloses
  have hhead : m.token ∈ post.head? := by
    rw [← head?_marks, Option.mem_def.mp hm]
    rfl
  have hnone := hlook _ (List.getLast_mem_getLast? hne) _ hhead
  have hcloser : isCloser m.token.kind = true := by
    cases m with
    | single t => exact hcloses
    | label | call => cases hcloses
  refine isFresh_foldlM (by simp [Progress.start]) hp (List.getLast_mem_getLast? hne) ?_
  simpa [looksAt, hcloser] using (Bool.or_eq_false_iff.mp hnone).2

/-- The end of one line within a group changes nothing, unless it tears two tokens apart. -/
lemma grouped?_append_newline (s : Source) (hnewline : newline.kind = .newline)
    (hlast : last.kind = .eof) (hpre : ∀ t ∈ pre, t.kind ≠ .eof)
    (hpost : ∀ t ∈ post, t.kind ≠ .eof) (hdepth : depth 0 pre ≠ 0)
    (hlook : ∀ t ∈ pre.getLast?, ∀ u ∈ post.head?, looksAt t u = false) :
    s.grouped? (pre ++ newline :: post ++ [last]) = s.grouped? (pre ++ post ++ [last]) := by
  have heof : ∀ t ∈ pre ++ post, t.kind ≠ .eof := List.forall_mem_append.mpr ⟨hpre, hpost⟩
  have heof' : ∀ t ∈ pre ++ newline :: post, t.kind ≠ .eof := by
    simp only [List.forall_mem_append, List.forall_mem_cons]
    exact ⟨hpre, by simp [hnewline], hpost⟩
  have hfree : ∀ t ∈ pre.getLast?, IsFree t post := by
    intro t ht u hu
    have hnone := hlook t ht u hu
    simp only [looksAt, Bool.or_eq_false_iff] at hnone
    exact ⟨by simpa using hnone.1.1, by simpa using hnone.1.2⟩
  have hmarks : marks (pre ++ newline :: post) = marks pre ++ .single newline :: marks post :=
    marks_append_cons (by simp [hnewline]) (by simp [hnewline]) (by simp [hnewline, canLabel])
      pre post
  have hmarks' : marks (pre ++ post) = marks pre ++ marks post := marks_append_of_isFree hfree
  refine Option.ext fun rs => ?_
  rw [Source.grouped?_eq_some_iff heof' hlast, Source.grouped?_eq_some_iff heof hlast, hmarks,
    hmarks', Source.Yields, Source.Yields, List.foldlM_append, List.foldlM_append]
  cases hp : (marks pre).foldlM s.placeMark .start with
  | error e => simp
  | ok p =>
    have hgroups : p.groups ≠ [] := by
      intro hnil
      have hlength := length_groups_foldlM hp
      rw [hnil] at hlength
      exact hdepth hlength.symm
    have hne : pre ≠ [] := by
      rintro rfl
      exact hdepth rfl
    have hline : s.placeMark p (.single newline) = .ok (p.touch newline.place) := by
      rw [Source.placeMark, Source.place_of_newline hnewline, if_neg (by simpa using hgroups)]
    have hsound : IsSound (Bears s.registry (pre ++ post)) p :=
      IsSound.start.foldlM (fun m hm => List.mem_append_left _ (token_mem_of_mem_marks hm)) hp
    have hms : ∀ m ∈ marks post, m.token ∈ pre ++ post := fun m hm =>
      List.mem_append_right _ (token_mem_of_mem_marks hm)
    simp only [ok_bind, List.foldlM_cons, hline]
    exact yields_touch_iff hsound hms hgroups (isFresh_of_looksAt hp hne hlook) newline.place

/-! ### All ends of lines within groups -/

/-- The ends of lines within groups behind some tokens can be taken out, unless a line tears two
tokens apart. -/
lemma grouped?_append_joinLines (s : Source) (hlast : last.kind = .eof) (pre : List Token)
    (heof : ∀ t ∈ pre ++ ts, t.kind ≠ .eof) (htorn : ¬Torn 0 (pre ++ ts)) :
    s.grouped? (pre ++ joinLines (depth 0 pre) ts ++ [last]) =
      s.grouped? (pre ++ ts ++ [last]) := by
  induction ts generalizing pre with
  | nil => rfl
  | cons t ts ih =>
    by_cases ht : t.kind = .newline ∧ depth 0 pre ≠ 0
    · obtain ⟨hpre, -, hts⟩ : (∀ u ∈ pre, u.kind ≠ .eof) ∧ t.kind ≠ .eof ∧
          ∀ u ∈ ts, u.kind ≠ .eof := by
        simpa only [List.forall_mem_append, List.forall_mem_cons] using heof
      have hlook : ∀ u ∈ pre.getLast?, ∀ v ∈ ts.head?, looksAt u v = false := by
        intro u hu v hv
        by_contra hlook
        exact htorn (torn_of_looksAt ht.1 ht.2 hu hv (by simpa using hlook))
      have htorn' : ¬Torn 0 (pre ++ ts) := fun h => htorn (h.insert ht.1)
      rw [joinLines_of_newline ht.1 ht.2, ih pre (List.forall_mem_append.mpr ⟨hpre, hts⟩) htorn']
      exact (grouped?_append_newline s ht.1 hlast hpre hts ht.2 hlook).symm
    · have hdepth : depth 0 (pre ++ [t]) = openBehind (depth 0 pre) t := depth_append 0 pre [t]
      have hrest := ih (pre ++ [t]) (by simpa using heof) (by simpa using htorn)
      rw [joinLines_of_ne ht, ← hdepth]
      simpa using hrest

/-- A script with a line that begins with a colon has no regions. -/
lemma grouped?_of_hasStrayColon (s : Source) (hlast : last.kind = .eof)
    (heof : ∀ t ∈ ts, t.kind ≠ .eof) (h : HasStrayColon (ts ++ [last])) :
    s.grouped? (ts ++ [last]) = none := by
  obtain ⟨pre, newline, colon, post, htokens, hnewline, hcolon⟩ := h
  -- The colon is not the end of the script.
  obtain ⟨post, rfl⟩ : ∃ post', ts = pre ++ newline :: colon :: post' := by
    rcases List.eq_nil_or_concat post with rfl | ⟨post, u, rfl⟩
    · have hcolon' : last = colon := by simpa using congrArg List.getLast? htokens
      rw [hcolon', hcolon] at hlast
      cases hlast
    · have hinit : ts ++ [last] = (pre ++ newline :: colon :: post) ++ [u] := by
        simpa using htokens
      exact ⟨post, List.append_inj_left' hinit rfl⟩
  refine Option.eq_none_iff_forall_ne_some.mpr fun rs hrs => ?_
  obtain ⟨q, hq, -⟩ := (Source.grouped?_eq_some_iff heof hlast).mp hrs
  rw [marks_append_cons (by simp [hnewline]) (by simp [hnewline]) (by simp [hnewline, canLabel]),
    marks_cons (by simp [hcolon, canLabel]), List.foldlM_append] at hq
  obtain ⟨p, -, hq⟩ := bind_eq_ok_iff.mp hq
  obtain ⟨p', -, hq⟩ := bind_eq_ok_iff.mp hq
  obtain ⟨r, hr, -⟩ := bind_eq_ok_iff.mp hq
  rw [Source.placeMark, Source.place_of_refused (Or.inl hcolon)] at hr
  exact Source.unexpected_ne_ok hr

/-- The weight of regions is the one their tokens tell. -/
lemma weight_of_grouped? (hlast : last.kind = .eof) (heof : ∀ t ∈ ts, t.kind ≠ .eof)
    {rs : List Tree} (h : s.grouped? (ts ++ [last]) = some rs) :
    weight (readLists rs) = tokenWeight none (ts ++ [last]) := by
  obtain ⟨regions, hregions, rfl⟩ := Option.map_eq_some_iff.mp h
  have hcovers := covers_regions hlast heof (eq_ok_of_toOption hregions)
  have howed : owed none (ts ++ [last]) = 0 := by cases ts <;> simp [owed]
  rw [readLists_map_unplaced, weight_map_unplaced, ← weight_add_owed hcovers, howed, Nat.add_zero]

/-- The ends of lines within groups can be taken out without a change to the regions but for their
places, and to whether there are any, unless a line tears two tokens apart. If one does, the regions
change, or there were none. -/
theorem regions_joinLines_iff (s : Source) (hlast : last.kind = .eof)
    (heof : ∀ t ∈ ts, t.kind ≠ .eof) :
    s.grouped? (joinLines 0 ts ++ [last]) = s.grouped? (ts ++ [last]) ↔
      (Torn 0 ts → s.grouped? (ts ++ [last]) = none ∧
        s.grouped? (joinLines 0 ts ++ [last]) = none) := by
  constructor
  · intro hsame htorn
    rw [hsame, and_self]
    refine Option.eq_none_iff_forall_ne_some.mpr fun rs hrs => ?_
    have heof' : ∀ t ∈ joinLines 0 ts, t.kind ≠ .eof :=
      fun t ht => heof t (mem_of_mem_joinLines ht)
    have hjoin : joinLines 0 (ts ++ [last]) = joinLines 0 ts ++ [last] := by
      rw [joinLines_append, joinLines_of_ne (by simp [hlast])]
      rfl
    -- The regions have one weight, and the tokens tell another one without the lines.
    have hweight := weight_of_grouped? hlast heof hrs
    have hweight' := weight_of_grouped? hlast heof' (hsame.trans hrs)
    rcases (htorn.append [last]).tokenWeight_lt with hcolon | hlt
    · rw [grouped?_of_hasStrayColon s hlast heof hcolon] at hrs
      cases hrs
    · have hless := hlt none none (.refl none)
      rw [hjoin] at hless
      omega
  · intro h
    by_cases htorn : Torn 0 ts
    · obtain ⟨hnone, hnone'⟩ := h htorn
      rw [hnone, hnone']
    · exact grouped?_append_joinLines s hlast [] heof htorn

/-- The lines of `(`, `$a,` and `b)` are grouped as `($a, b)` is. What stands on the lines `[` and
`]` is not grouped as `[]` is. -/
theorem regions_joinLines_of_arguments :
    let token (kind : TokenKind) (text : String) (line : Int) : Token :=
      ⟨kind, .text text, ⟨"f.ms", line, 1⟩⟩
    let newline (line : Int) : Token := ⟨.newline, .null, ⟨"f.ms", line, 9⟩⟩
    let s : Source := ⟨[], .builtin⟩
    let last := token .eof "" 3
    let arguments := [token .leftParen "(" 1, newline 1, token .variable "a" 2, token .comma "," 2,
      newline 2, token .word "b" 3, token .rightParen ")" 3]
    let empty := [token .leftBracket "[" 1, newline 1, token .rightBracket "]" 2]
    ¬Torn 0 arguments ∧ Torn 0 empty ∧ joinLines 0 arguments ≠ arguments ∧
    s.grouped? (joinLines 0 arguments ++ [last]) = s.grouped? (arguments ++ [last]) ∧
    s.grouped? (arguments ++ [last]) ≠ none ∧ s.grouped? (empty ++ [last]) ≠ none ∧
    s.grouped? (joinLines 0 empty ++ [last]) ≠ s.grouped? (empty ++ [last]) := by
  intro token newline s last arguments empty
  have harguments : ¬Torn 0 arguments := by decide
  have hempty : Torn 0 empty := by decide
  have hsome : s.grouped? (empty ++ [last]) ≠ none := nofun
  refine ⟨harguments, hempty, by decide, ?_, nofun, hsome, fun h => ?_⟩
  · exact (regions_joinLines_iff s rfl (by decide)).mpr fun h => absurd h harguments
  · exact hsome ((regions_joinLines_iff s rfl (by decide)).mp h hempty).1

/-- A group that is closed on the next line has an argument list, which it has not on one line. -/
theorem regions_joinLines_empty_group :
    ¬∀ (s : Source) (ts : List Token) (last : Token), last.kind = .eof →
      (∀ t ∈ ts, t.kind ≠ .eof) →
        s.grouped? (joinLines 0 ts ++ [last]) = s.grouped? (ts ++ [last]) := by
  intro hclaim
  let token (kind : TokenKind) (text : String) (line column : Int) : Token :=
    ⟨kind, .text text, ⟨"<input>", line, column⟩⟩
  have hsame := hclaim ⟨[], .builtin⟩
    [token .leftParen "(" 1 1, ⟨.newline, .null, ⟨"<input>", 1, 2⟩⟩, token .rightParen ")" 2 1]
    (token .eof "" 2 2) rfl (by decide)
  cases hsame

end Grouping

end LineScript
