import LineScript.Proofs.Grouping.Context
import LineScript.Proofs.Grouping.Relocation

/-!
# Regions as arguments of groups

Tokens that make up a region become the same list as an argument of a group, if no line ends in
them outside of all groups. A group around such arguments is again a region of this kind.
-/

namespace LineScript

namespace Grouping

open Traced

/-! ### Lines that end within groups -/

/-- Every end of a line has a group open around it, where `n` groups are open before the tokens. -/
def LinesInside (n : ℕ) (ts : List Token) : Prop :=
  ∀ pre t post, ts = pre ++ t :: post → t.kind = .newline →
    pre.countP (isCloser ·.kind) < pre.countP (isOpener ·.kind) + n

/-- The tokens lead from `n` open groups to `m`. -/
def Leads (n m : ℕ) (ts : List Token) : Prop :=
  n + ts.countP (isOpener ·.kind) = m + ts.countP (isCloser ·.kind)

variable {n m k : ℕ} {t u : Token} {ts us : List Token}

lemma Leads.append (hts : Leads n m ts) (hus : Leads m k us) : Leads n k (ts ++ us) := by
  simp only [Leads, List.countP_append] at hts hus ⊢
  omega

lemma leads_self (hopener : isOpener t.kind = false) (hcloser : isCloser t.kind = false) (n : ℕ) :
    Leads n n [t] := by
  simp [Leads, hopener, hcloser]

lemma leads_of_opens {closer : TokenKind} {name : String}
    (h : opens? t.kind = some (closer, name)) (n : ℕ) : Leads n (n + 1) [t] := by
  have hopener : isOpener t.kind = true := by simp [isOpener, h]
  simp [Leads, hopener, isCloser_eq_false_of_opens h]

lemma leads_of_isCloser (h : isCloser t.kind = true) (n : ℕ) : Leads (n + 1) n [t] := by
  simp [Leads, h, isOpener_eq_false_of_isCloser h]

lemma LinesInside.mono (h : LinesInside n ts) (hnm : n ≤ m) : LinesInside m ts := by
  intro pre t post hts ht
  have hlt := h pre t post hts ht
  omega

lemma Leads.linesInside (hts : Leads n m ts) (h : LinesInside n (ts ++ us)) :
    LinesInside m us := by
  rintro pre t post rfl ht
  have hlt := h (ts ++ pre) t post (by simp) ht
  simp only [Leads, List.countP_append] at hts hlt
  omega

lemma LinesInside.append (h : LinesInside n ts) (hts : Leads n m ts) (h' : LinesInside m us) :
    LinesInside n (ts ++ us) := by
  intro pre t post heq ht
  rcases List.append_eq_append_iff.mp heq with ⟨pre', rfl, hus⟩ | ⟨post', rfl, hus⟩
  · have hlt := h' pre' t post hus ht
    simp only [Leads, List.countP_append] at hts ⊢
    omega
  · cases post' with
    | nil =>
      have hlt := h' [] t post (by simpa using hus.symm) ht
      simp only [Leads, List.append_nil, List.countP_nil] at hts hlt ⊢
      omega
    | cons v post' =>
      obtain ⟨rfl, -⟩ := List.cons.inj hus
      exact h pre t post' rfl ht

lemma linesInside_of_ne_newline (h : ∀ t ∈ ts, t.kind ≠ .newline) (n : ℕ) : LinesInside n ts := by
  rintro pre t post rfl ht
  exact absurd ht (h t (by simp))

/-! ### Runs in which no line ends outside of all groups -/

variable {s : Source} {p q : Progress} {ms : List Mark} {regions : List Tree} {gs : List OpenGroup}

namespace Progress

@[simp] lemma regions_touch (p : Progress) (place : Location) :
    (p.touch place).regions = p.regions := by
  unfold touch
  split <;> rfl

@[simp] lemma length_groups_touch (p : Progress) (place : Location) :
    (p.touch place).groups.length = p.groups.length := by
  unfold touch
  split <;> simp [*]

@[simp] lemma groups_endRegion (p : Progress) : p.endRegion.groups = p.groups := by
  unfold endRegion
  split <;> rfl

lemma separate?_keeps (h : p.separate? t = some q) :
    q.regions = p.regions ∧ q.groups.length = p.groups.length := by
  obtain ⟨rs, groups, siblings⟩ := p
  cases groups with
  | nil => cases h
  | cons g groups =>
    obtain rfl := Option.some.inj h
    exact ⟨rfl, rfl⟩

lemma close?_keeps (h : p.close? t = some q) :
    q.regions = p.regions ∧ p.groups.length = q.groups.length + 1 := by
  obtain ⟨rs, groups, siblings⟩ := p
  cases groups with
  | nil => cases h
  | cons g groups =>
    simp only [close?] at h
    split_ifs at h
    all_goals
      obtain rfl := Option.some.inj h
      exact ⟨rfl, rfl⟩

end Progress

/-- A token changes the number of open groups as its kind says. -/
lemma leads_place (h : s.place p t = .ok q) : Leads p.groups.length q.groups.length [t] := by
  rcases Source.place_cases h with ⟨hkind, rfl⟩ | ⟨hkind, hq⟩ | ⟨hkind, hq⟩ |
    ⟨closer, name, hkind, rfl⟩ | ⟨hkind, rfl⟩
  · have hlength : (if p.groups.isEmpty then p.endRegion else p.touch t.place).groups.length =
        p.groups.length := by
      split <;> simp
    rw [hlength]
    exact leads_self (by rw [hkind]; rfl) (by rw [hkind]; rfl) _
  · rw [(Progress.separate?_keeps hq).2]
    exact leads_self (by rw [hkind]; rfl) (by rw [hkind]; rfl) _
  · rw [(Progress.close?_keeps hq).2]
    exact leads_of_isCloser hkind _
  · rw [Progress.openGroup, List.length_cons, Progress.length_groups_touch]
    exact leads_of_opens hkind _
  · rw [Progress.push, Progress.length_groups_touch]
    exact leads_self (isOpener_eq_false_of_isAtom hkind) (isCloser_eq_false_of_isAtom hkind) _

/-- Regions end with lines outside of all groups only. -/
lemma regions_placeMark {m : Mark} (h : s.placeMark p m = .ok q)
    (hline : m.endsLine = true → p.groups ≠ []) : q.regions = p.regions := by
  cases m with
  | label t =>
    obtain ⟨text, -, hq⟩ := bind_eq_ok_iff.mp h
    obtain rfl := Except.ok.inj hq
    exact p.regions_touch t.place
  | call t =>
    obtain rfl := Except.ok.inj h
    exact p.regions_touch t.place
  | single t =>
    rcases Source.place_cases h with ⟨hkind, rfl⟩ | ⟨-, hq⟩ | ⟨-, hq⟩ | ⟨closer, name, -, rfl⟩ |
      ⟨-, rfl⟩
    · have hgroups : p.groups ≠ [] := hline (by simp [Mark.endsLine, hkind])
      rw [if_neg (by simpa using hgroups)]
      exact p.regions_touch t.place
    · exact (Progress.separate?_keeps hq).1
    · exact (Progress.close?_keeps hq).1
    · exact p.regions_touch t.place
    · exact p.regions_touch _

/-- A run in which no line ends outside of all groups. -/
inductive RunsInside (s : Source) : Progress → List Mark → Progress → Prop where
  | nil (p : Progress) : RunsInside s p [] p
  | cons {p p' q : Progress} {m : Mark} {ms : List Mark} (hm : s.placeMark p m = .ok p')
      (hline : m.endsLine = true → p.groups ≠ []) (h : RunsInside s p' ms q) :
      RunsInside s p (m :: ms) q

lemma leads_label (hcan : canLabel t.kind = true) (hcolon : u.kind = .colon)
    (h : s.placeMark p (.label t) = .ok q) : Leads p.groups.length q.groups.length [t, u] := by
  have hatom := isAtom_of_canLabel hcan
  have hgroups : q.groups.length = p.groups.length := by
    obtain ⟨text, -, h⟩ := bind_eq_ok_iff.mp h
    obtain rfl := Except.ok.inj h
    exact p.length_groups_touch t.place
  rw [hgroups]
  exact (leads_self (isOpener_eq_false_of_isAtom hatom) (isCloser_eq_false_of_isAtom hatom)
    _).append (leads_self (by rw [hcolon]; rfl) (by rw [hcolon]; rfl) _)

lemma leads_call (hword : t.kind = .word) (hparen : u.kind = .leftParen)
    (h : s.placeMark p (.call t) = .ok q) : Leads p.groups.length q.groups.length [t, u] := by
  have hgroups : q.groups.length = p.groups.length + 1 := by
    obtain rfl := Except.ok.inj h
    rw [Progress.openGroup, List.length_cons, Progress.length_groups_touch]
  rw [hgroups]
  exact (leads_self (by rw [hword]; rfl) (by rw [hword]; rfl) _).append
    (leads_of_opens (by rw [hparen]; rfl) _)

lemma LinesInside.groups_ne_nil (h : LinesInside p.groups.length (t :: ts))
    (hline : (Mark.single t).endsLine = true) : p.groups ≠ [] := by
  intro hnil
  have hlt := h [] t ts rfl (by simpa [Mark.endsLine] using hline)
  simp [hnil] at hlt

/-- The tokens of such a run lead from the groups before to those behind. -/
lemma runsInside_marks (h : (marks ts).foldlM s.placeMark p = .ok q)
    (hlines : LinesInside p.groups.length ts) :
    RunsInside s p (marks ts) q ∧ Leads p.groups.length q.groups.length ts := by
  -- every mark hands the number of open groups on to the tokens behind it
  fun_induction marks ts generalizing p with
  | case1 =>
    obtain rfl := Except.ok.inj h
    exact ⟨.nil p, rfl⟩
  | case2 t =>
    obtain ⟨p', hp', h⟩ := bind_eq_ok_iff.mp h
    obtain rfl := Except.ok.inj h
    exact ⟨.cons hp' hlines.groups_ne_nil (.nil p'), leads_place hp'⟩
  | case3 t u ts hmark ih =>
    obtain ⟨hcan, hcolon⟩ : canLabel t.kind = true ∧ u.kind = .colon := by simpa using hmark
    obtain ⟨p', hp', h⟩ := bind_eq_ok_iff.mp h
    have hleads := leads_label hcan hcolon hp'
    obtain ⟨hrun, hrest⟩ := ih h (hleads.linesInside hlines)
    exact ⟨.cons hp' (by simp [Mark.endsLine]) hrun, hleads.append hrest⟩
  | case4 t u ts hlabel hmark ih =>
    obtain ⟨hword, hparen⟩ : t.kind = .word ∧ u.kind = .leftParen := by simpa using hmark
    obtain ⟨p', hp', h⟩ := bind_eq_ok_iff.mp h
    have hleads := leads_call hword hparen hp'
    obtain ⟨hrun, hrest⟩ := ih h (hleads.linesInside hlines)
    exact ⟨.cons hp' (by simp [Mark.endsLine]) hrun, hleads.append hrest⟩
  | case5 t u ts hlabel hcall ih =>
    obtain ⟨p', hp', h⟩ := bind_eq_ok_iff.mp h
    have hleads : Leads p.groups.length p'.groups.length [t] := leads_place hp'
    obtain ⟨hrun, hrest⟩ := ih h (hleads.linesInside hlines)
    exact ⟨.cons hp' hlines.groups_ne_nil hrun, hleads.append hrest⟩

lemma RunsInside.regions_eq (h : RunsInside s p ms q) : q.regions = p.regions := by
  induction h with
  | nil => rfl
  | cons hm hline h ih => rw [ih, regions_placeMark hm hline]

/-- Groups that are open around such a run stay as they are. -/
lemma RunsInside.within (h : RunsInside s p ms q) (hgs : HaveBegun gs) (regions : List Tree) :
    ms.foldlM s.placeMark (p.within regions gs) = .ok (q.within regions gs) := by
  induction h with
  | nil => rfl
  | @cons p p' q m ms hm hline h ih =>
    have hreach : p.reach m.token.place gs = gs := by
      unfold Progress.reach
      split
      · exact touchGroups_of_haveBegun hgs m.token.place
      · rfl
    have hstep : s.placeMark (p.within regions gs) m =
        .ok (p'.within regions (p.reach m.token.place gs)) :=
      placeMark_within hm fun hm hnil => absurd hnil (hline hm)
    rw [List.foldlM_cons, hstep, hreach, ok_bind]
    exact ih

/-- Such a run begins the current list of the group around it. -/
lemma RunsInside.within_start (h : RunsInside s .start ms q) (hms : ms ≠ []) (regions : List Tree)
    (gs : List OpenGroup) : ∃ place, ms.foldlM s.placeMark (Progress.start.within regions gs) =
      .ok (q.within regions (touchGroups place gs)) := by
  cases h with
  | nil => exact absurd rfl hms
  | @cons _ p' _ m ms hm hline h =>
    have hstep : s.placeMark (Progress.start.within regions gs) m =
        .ok (p'.within regions (touchGroups m.token.place gs)) :=
      placeMark_within hm fun hm hnil => absurd hnil (hline hm)
    refine ⟨m.token.place, ?_⟩
    rw [List.foldlM_cons, hstep, ok_bind]
    exact h.within (haveBegun_touchGroups _ _) regions

/-! ### Arguments of a group -/

/-- The tokens by themselves make up a region, wherever the script ends behind them and whatever
its lines are, and no line ends in them outside of all groups. -/
structure FormsRegion (registry : Registry) (ts : List Token) (region : Tree) : Prop where
  ne_eof : ∀ t ∈ ts, t.kind ≠ .eof
  lines : LinesInside 0 ts
  regions : ∀ (lines : List String) (last : Token), last.kind = .eof →
    (Source.mk lines registry).regions (ts ++ [last]) = .ok [region]

/-- The lists, with a comma between each two. -/
inductive Separated : List (List Token) → List Token → Prop where
  | single (ts : List Token) : Separated [ts] ts
  | cons {ts body : List Token} {tss : List (List Token)} {comma : Token}
      (hcomma : comma.kind = .comma) (h : Separated tss body) :
      Separated (ts :: tss) (ts ++ comma :: body)

/-- The tokens of a group around others, with its place and the name of its call. -/
inductive Encloses (body : List Token) : List Token → Location → String → Prop where
  | call {f o c : Token} (hf : f.kind = .word) (ho : o.kind = .leftParen)
      (hc : c.kind = .rightParen) : Encloses body (f :: o :: (body ++ [c])) f.place f.name
  | group {o c : Token} {name : String} (ho : opens? o.kind = some (c.kind, name)) :
      Encloses body (o :: (body ++ [c])) o.place name

variable {registry : Registry} {region : Tree} {rs : List Tree} {tss : List (List Token)}
  {body : List Token} {g : OpenGroup} {place : Location} {name : String}

namespace FormsRegion

/-- Tokens that make up a region before one end of a script do so before every other one. -/
lemma of_regions {last : Token} (heof : ∀ t ∈ ts, t.kind ≠ .eof) (hlines : LinesInside 0 ts)
    (hlast : last.kind = .eof) (h : s.regions (ts ++ [last]) = .ok [region]) :
    FormsRegion s.registry ts region := by
  refine ⟨heof, hlines, fun lines last' hlast' => ?_⟩
  have hregistry : (Source.mk lines s.registry).registry = s.registry := rfl
  have hsame := regions_of_registry_eq hregistry hlast heof h
  rw [Source.regions_eq_ok_iff heof hlast] at hsame
  rwa [Source.regions_eq_ok_iff heof hlast']

/-- The run over such tokens leaves the siblings of their region. -/
lemma exists_run (h : FormsRegion s.registry ts region) : ∃ us, us ≠ [] ∧
    RunsInside s .start (marks ts) ⟨[], [], us⟩ ∧ Leads 0 0 ts ∧ marks ts ≠ [] ∧
      ∀ place, listOf place us = region := by
  have hregions := h.regions s.lines ⟨.eof, .null, .unknown⟩ rfl
  obtain ⟨⟨regions, groups, us⟩, hq, hgroups, hregion⟩ :=
    (Source.regions_eq_ok_iff h.ne_eof rfl).mp hregions
  obtain rfl : groups = [] := hgroups
  obtain ⟨hrun, hleads⟩ := runsInside_marks hq h.lines
  obtain rfl : regions = [] := hrun.regions_eq
  cases us with
  | nil =>
    -- without siblings there would be no region
    cases hregion
  | cons u us =>
    obtain rfl : region = listOf u.place (u :: us) := by
      simpa [Progress.endRegion] using hregion
    refine ⟨u :: us, List.cons_ne_nil u us, hrun, hleads, ?_, ?_⟩
    · intro hnil
      rw [hnil] at hrun
      cases hrun
    · intro place
      unfold listOf
      rw [List.getLast?_cons]

lemma eq_list (h : FormsRegion registry ts region) :
    ∃ place children, region = .call place Tree.listName children := by
  obtain ⟨us, -, -, -, -, hlist⟩ := exists_run (s := ⟨[], registry⟩) h
  exact ⟨_, _, (hlist .unknown).symm⟩

lemma leads (h : FormsRegion registry ts region) (n : ℕ) : Leads n n ts := by
  obtain ⟨-, -, -, hleads, -⟩ := exists_run (s := ⟨[], registry⟩) h
  simpa [Leads] using hleads

/-- As an argument the tokens become the same list. -/
lemma run_argument (h : FormsRegion s.registry ts region) (hg : g.start = none)
    (regions : List Tree) (gs : List OpenGroup) : ∃ place us,
      (marks ts).foldlM s.placeMark (Progress.start.within regions (g :: gs)) =
        .ok ⟨regions, { g with start := some place } :: gs, us⟩ ∧ listOf place us = region := by
  obtain ⟨us, -, hrun, -, hmarks, hlist⟩ := h.exists_run
  obtain ⟨place, hplace⟩ := hrun.within_start hmarks regions (g :: gs)
  refine ⟨place, us, ?_, hlist place⟩
  rw [hplace, touchGroups, hg]
  simp [Progress.within]

lemma relocate (h : FormsRegion registry ts region) (φ : Location → Location) :
    FormsRegion registry (ts.map (Token.relocate φ)) (region.relocate φ) := by
  have heof : ∀ t ∈ ts.map (Token.relocate φ), t.kind ≠ .eof := by
    simpa [Token.relocate] using h.ne_eof
  have hlines : LinesInside 0 (ts.map (Token.relocate φ)) := by
    intro pre t post heq ht
    obtain ⟨pre', rest, rfl, rfl, hrest⟩ := List.map_eq_append_iff.mp heq
    obtain ⟨t', post', rfl, rfl, rfl⟩ := List.map_eq_cons_iff.mp hrest
    simpa [List.countP_map, Function.comp_def, Token.relocate] using h.lines pre' t' post' rfl ht
  let last : Token := ⟨.eof, .null, .unknown⟩
  have hregions : (Source.mk [] registry).regions ((ts ++ [last]).map (Token.relocate φ)) =
      .ok [region.relocate φ] :=
    regions_relocate (s := ⟨[], registry⟩) φ rfl rfl h.ne_eof (h.regions [] last rfl)
  rw [List.map_append] at hregions
  exact of_regions (s := ⟨[], registry⟩) heof hlines rfl hregions

end FormsRegion

namespace Separated

/-- Within a group the arguments and the commas between them open no group that they do not close,
and every line ends inside. -/
lemma inside (h : Separated tss body) (hrs : List.Forall₂ (FormsRegion registry) tss rs) :
    (∀ t ∈ body, t.kind ≠ .eof) ∧ LinesInside 1 body ∧ Leads 1 1 body := by
  induction h generalizing rs with
  | single ts =>
    obtain ⟨region, _, hregion, -, rfl⟩ := List.forall₂_cons_left_iff.mp hrs
    exact ⟨hregion.ne_eof, hregion.lines.mono (by omega), hregion.leads 1⟩
  | @cons ts body tss comma hcomma h ih =>
    obtain ⟨region, _, hregion, hrest, rfl⟩ := List.forall₂_cons_left_iff.mp hrs
    obtain ⟨heof, hlines, hleads⟩ := ih hrest
    have hself : Leads 1 1 [comma] := leads_self (by rw [hcomma]; rfl) (by rw [hcomma]; rfl) 1
    have hline : LinesInside 1 [comma] := linesInside_of_ne_newline (by simp [hcomma]) 1
    rw [← List.singleton_append]
    refine ⟨?_, ?_, (hregion.leads 1).append (hself.append hleads)⟩
    · simp only [List.forall_mem_append, List.forall_mem_singleton]
      exact ⟨hregion.ne_eof, by simp [hcomma], heof⟩
    · exact (hregion.lines.mono (by omega)).append (hregion.leads 1) (hline.append hself hlines)

/-- The arguments of a group become its lists, one after the other. -/
lemma run_arguments (h : Separated tss body)
    (hrs : List.Forall₂ (FormsRegion s.registry) tss rs) (hg : g.start = none)
    (regions : List Tree) (gs : List OpenGroup) : ∃ place us done,
      (marks body).foldlM s.placeMark (Progress.start.within regions (g :: gs)) =
        .ok ⟨regions, { g with done := done, start := some place } :: gs, us⟩ ∧
      listOf place us :: done = rs.reverse ++ g.done := by
  -- a comma adds the list before it to those that are done, so the group varies
  induction h generalizing rs g with
  | single ts =>
    obtain ⟨region, _, hregion, hnil, rfl⟩ := List.forall₂_cons_left_iff.mp hrs
    obtain rfl := List.forall₂_nil_left_iff.mp hnil
    obtain ⟨place, us, hrun, rfl⟩ := hregion.run_argument hg regions gs
    exact ⟨place, us, g.done, hrun, rfl⟩
  | @cons ts body tss comma hcomma h ih =>
    obtain ⟨region, rest, hregion, hrest, rfl⟩ := List.forall₂_cons_left_iff.mp hrs
    obtain ⟨place, us, hrun, rfl⟩ := hregion.run_argument hg regions gs
    have hmarks : marks (ts ++ comma :: body) = marks ts ++ .single comma :: marks body :=
      marks_append_cons (by simp [hcomma]) (by simp [hcomma]) (by simp [hcomma, canLabel]) ts body
    have hstep : s.placeMark ⟨regions, { g with start := some place } :: gs, us⟩ (.single comma) =
        .ok (Progress.start.within regions
          ({ g with done := listOf place us :: g.done, start := none } :: gs)) := by
      rw [Source.placeMark, Source.place_of_comma hcomma]
      rfl
    obtain ⟨place', us', done, hrun', hdone⟩ :=
      ih (g := { g with done := listOf place us :: g.done, start := none }) hrest rfl
    refine ⟨place', us', done, ?_, ?_⟩
    · rw [hmarks, List.foldlM_append, hrun, ok_bind, List.foldlM_cons, hstep, ok_bind, hrun']
    · simpa using hdone

end Separated

/-! ### Groups -/

lemma Encloses.parens {o c : Token} (ho : o.kind = .leftParen) (hc : c.kind = .rightParen) :
    Encloses body (o :: (body ++ [c])) o.place Tree.parenName :=
  .group (by rw [ho, hc]; rfl)

lemma Encloses.brackets {o c : Token} (ho : o.kind = .leftBracket) (hc : c.kind = .rightBracket) :
    Encloses body (o :: (body ++ [c])) o.place Tree.bracketName :=
  .group (by rw [ho, hc]; rfl)

lemma Encloses.braces {o c : Token} (ho : o.kind = .leftBrace) (hc : c.kind = .rightBrace) :
    Encloses body (o :: (body ++ [c])) o.place Tree.braceName :=
  .group (by rw [ho, hc]; rfl)

/-- What is in front of the tokens of a group opens it, and what is behind them closes it. -/
lemma Encloses.marks_eq (h : Encloses body ts place name) : ∃ m o c, o.place = place ∧
    isCloser c.kind = true ∧ marks ts = m :: (marks body ++ [.single c]) ∧
      ∀ (s : Source) (p : Progress), s.placeMark p m = .ok (p.openGroup o name c.kind) := by
  have hend : ∀ {c : Token}, isCloser c.kind = true →
      marks (body ++ [c]) = marks body ++ [.single c] := by
    intro c hc
    refine marks_append_cons ?_ ?_ ?_ body []
    · rintro hkind
      simp [hkind, isCloser] at hc
    · rintro hkind
      simp [hkind, isCloser] at hc
    · cases hkind : c.kind <;> simp [hkind, isCloser, canLabel] at hc ⊢
  cases h with
  | @call f o c hf ho hc =>
    have hcloser : isCloser c.kind = true := by simp [hc, isCloser]
    refine ⟨.call f, f, c, rfl, hcloser, ?_, ?_⟩
    · rw [← hend hcloser, marks, if_neg (by simp [ho]), if_pos (by simp [hf, ho])]
    · intro s p
      rw [hc]
      rfl
  | @group o c name ho =>
    have hcloser : isCloser c.kind = true := isCloser_of_opens ho
    have hopener : canLabel o.kind = false ∧ o.kind ≠ .word := by
      cases hkind : o.kind <;> simp [hkind, opens?, canLabel] at ho ⊢
    refine ⟨.single o, o, c, rfl, hcloser, ?_, ?_⟩
    · rw [← hend hcloser, marks_cons hopener.1]
    · intro s p
      exact Source.place_of_opens ho

/-- A group opens no other one that it does not close, and every line ends inside. -/
lemma Encloses.inside (h : Encloses body ts place name) (heof : ∀ t ∈ body, t.kind ≠ .eof)
    (hlines : LinesInside 1 body) (hleads : Leads 1 1 body) :
    (∀ t ∈ ts, t.kind ≠ .eof) ∧ LinesInside 0 ts := by
  have hcloser : ∀ {c : Token}, isCloser c.kind = true →
      (∀ t ∈ body ++ [c], t.kind ≠ .eof) ∧ LinesInside 1 (body ++ [c]) := by
    intro c hc
    have hkind : c.kind ≠ .eof ∧ c.kind ≠ .newline := by
      constructor <;> rintro hkind <;> simp [hkind, isCloser] at hc
    refine ⟨?_, hlines.append hleads (linesInside_of_ne_newline (by simpa using hkind.2) 1)⟩
    simp only [List.forall_mem_append, List.forall_mem_singleton]
    exact ⟨heof, hkind.1⟩
  cases h with
  | @call f o c hf ho hc =>
    obtain ⟨heof, hlines⟩ := hcloser (c := c) (by simp [hc, isCloser])
    have hself : Leads 0 0 [f] := leads_self (by rw [hf]; rfl) (by rw [hf]; rfl) 0
    have hopens : Leads 0 1 [o] := leads_of_opens (by rw [ho]; rfl) 0
    refine ⟨List.forall_mem_cons.mpr ⟨by simp [hf], List.forall_mem_cons.mpr ⟨by simp [ho], heof⟩⟩,
      ?_⟩
    exact (linesInside_of_ne_newline (by simp [hf]) 0).append hself
      ((linesInside_of_ne_newline (by simp [ho]) 0).append hopens hlines)
  | @group o c name ho =>
    obtain ⟨heof, hlines⟩ := hcloser (isCloser_of_opens ho)
    have hkind : o.kind ≠ .eof ∧ o.kind ≠ .newline := by
      constructor <;> rintro hkind <;> simp [hkind, opens?] at ho
    refine ⟨List.forall_mem_cons.mpr ⟨hkind.1, heof⟩, ?_⟩
    exact (linesInside_of_ne_newline (by simpa using hkind.2) 0).append (leads_of_opens ho 0) hlines

/-- A group around regions is a region with a call of their lists. -/
theorem formsRegion_enclosed (hgroup : Encloses body ts place name) (hbody : Separated tss body)
    (hrs : List.Forall₂ (FormsRegion registry) tss rs) :
    FormsRegion registry ts (.call place Tree.listName [.call place name rs]) := by
  obtain ⟨hinside, hlines, hleads⟩ := hbody.inside hrs
  obtain ⟨heof, hlines⟩ := hgroup.inside hinside hlines hleads
  refine ⟨heof, hlines, fun lines last hlast => ?_⟩
  obtain ⟨m, o, c, rfl, hcloser, hmarks, hopen⟩ := hgroup.marks_eq
  obtain ⟨start, us, done, hrun, hdone⟩ := hbody.run_arguments
    (s := ⟨lines, registry⟩) (g := ⟨o, name, c.kind, [], none, []⟩) hrs rfl [] []
  have hclose : (Source.mk lines registry).placeMark
      ⟨[], [⟨o, name, c.kind, done, some start, []⟩], us⟩ (.single c) =
        .ok ⟨[], [], [.call o.place name rs]⟩ := by
    rw [Source.placeMark, Source.place_of_isCloser hcloser]
    simp [Progress.close?, Source.orUnexpected, hdone]
  rw [Source.regions_eq_ok_iff heof hlast]
  refine ⟨⟨[], [], [.call o.place name rs]⟩, ?_, rfl, rfl⟩
  have hstart : Progress.start.openGroup o name c.kind =
      Progress.start.within [] [⟨o, name, c.kind, [], none, []⟩] := rfl
  rw [hmarks, List.foldlM_cons, hopen, ok_bind, hstart, List.foldlM_append, hrun, ok_bind,
    List.foldlM_cons, hclose]
  rfl

/-! ### Regions of one element -/

/-- A run that leaves one element and opens nothing makes up a region. -/
lemma formsRegion_of_run {u : Tree} (hts : ∀ t ∈ ts, t.kind ≠ .eof ∧ t.kind ≠ .newline)
    (hrun : (marks ts).foldlM (Source.mk [] registry).placeMark .start = .ok ⟨[], [], [u]⟩) :
    FormsRegion registry ts (.call u.place Tree.listName [u]) := by
  have heof : ∀ t ∈ ts, t.kind ≠ .eof := fun t ht => (hts t ht).1
  let last : Token := ⟨.eof, .null, .unknown⟩
  have hregions : (Source.mk [] registry).regions (ts ++ [last]) =
      .ok [.call u.place Tree.listName [u]] :=
    (Source.regions_eq_ok_iff heof rfl).mpr ⟨_, hrun, rfl, rfl⟩
  exact .of_regions (s := ⟨[], registry⟩) heof
    (linesInside_of_ne_newline (fun t ht => (hts t ht).2) 0) rfl hregions

lemma formsRegion_atom (ht : isAtom t.kind = true) : FormsRegion registry [t]
    (.call (atom registry [] t).place Tree.listName [atom registry [] t]) := by
  have hkind : t.kind ≠ .eof ∧ t.kind ≠ .newline := by
    constructor <;> rintro hkind <;> simp [hkind, isAtom] at ht
  refine formsRegion_of_run (by simpa using hkind) ?_
  rw [marks, List.foldlM_cons, Source.placeMark, Source.place_of_isAtom ht]
  rfl

/-- A function name with nothing between its parentheses. -/
lemma formsRegion_bare {f o c : Token} (hf : f.kind = .word) (ho : o.kind = .leftParen)
    (hc : c.kind = .rightParen) :
    FormsRegion registry [f, o, c] (.call f.place Tree.listName [.call f.place f.name []]) := by
  have hmarks : marks [f, o, c] = [.call f, .single c] := by simp [marks, hf, ho, canLabel]
  refine formsRegion_of_run (u := .call f.place f.name []) (by simp [hf, ho, hc]) ?_
  rw [hmarks, List.foldlM_cons, Source.placeMark, ok_bind, List.foldlM_cons, Source.placeMark,
    Source.place_of_isCloser (by rw [hc]; rfl)]
  simp [Progress.close?, Progress.openGroup, Progress.touch, Progress.start, hc,
    Source.orUnexpected]

end Grouping

end LineScript
