import LineScript.Proofs.Grouping.Region
import LineScript.Proofs.Tree.Relocation

/-!
# Grouping does not depend on places

What is grouped at some places is grouped at others, and the regions are the same there; what is
refused is refused there with the same complaint (`isMoved_regions`). The lines of a source are for
its diagnostics only.
-/

namespace LineScript

namespace Grouping

open Traced

/-! ### Marks, groups and progress at other places -/

/-- The mark with its token moved. -/
def Mark.relocate (φ : Location → Location) : Mark → Mark
  | .label t => .label (t.relocate φ)
  | .call t => .call (t.relocate φ)
  | .single t => .single (t.relocate φ)

/-- The open group with every place moved. -/
def OpenGroup.relocate (φ : Location → Location) (g : OpenGroup) : OpenGroup :=
  ⟨g.opener.relocate φ, g.name, g.closer, g.done.map (Tree.relocate φ), g.start.map φ,
    g.outer.map (Tree.relocate φ)⟩

/-- The progress with every place moved. -/
def Progress.relocate (φ : Location → Location) (p : Progress) : Progress :=
  ⟨p.regions.map (Tree.relocate φ), p.groups.map (OpenGroup.relocate φ),
    p.siblings.map (Tree.relocate φ)⟩

variable {φ : Location → Location} {p q : Progress} {t : Token} {ts : List Token}

lemma marks_relocate (ts : List Token) :
    marks (ts.map (Token.relocate φ)) = (marks ts).map (Mark.relocate φ) := by
  fun_induction marks ts with
  | case1 => rfl
  | case2 t => rfl
  | case3 t u ts h ih =>
    have h' : (canLabel (t.relocate φ).kind && (u.relocate φ).kind = .colon) = true := h
    rw [List.map_cons, List.map_cons, marks, if_pos h', ih]
    rfl
  | case4 t u ts h h' ih =>
    have hlabel : ¬(canLabel (t.relocate φ).kind && (u.relocate φ).kind = .colon) = true := h
    have hcall : ((t.relocate φ).kind = .word && (u.relocate φ).kind = .leftParen) = true := h'
    rw [List.map_cons, List.map_cons, marks, if_neg hlabel, if_pos hcall, ih]
    rfl
  | case5 t u ts h h' ih =>
    have hlabel : ¬(canLabel (t.relocate φ).kind && (u.relocate φ).kind = .colon) = true := h
    have hcall : ¬((t.relocate φ).kind = .word && (u.relocate φ).kind = .leftParen) = true := h'
    rw [List.map_cons, List.map_cons, marks, if_neg hlabel, if_neg hcall, ← List.map_cons, ih]
    rfl

/-! ### Siblings -/

lemma listOf_relocate {siblings : List Tree} (h : ∀ t ∈ siblings, t ≠ .hole) (start : Location) :
    listOf (φ start) (siblings.map (Tree.relocate φ)) = (listOf start siblings).relocate φ := by
  unfold listOf
  rw [List.getLast?_map, Tree.relocate_call, List.map_reverse]
  cases hlast : siblings.getLast? with
  | none => rfl
  | some first =>
    have hfirst := Tree.place_relocate φ (h first (List.mem_of_getLast? hlast))
    simp only [Option.map_some, hfirst]

lemma leads_relocate (siblings : List Tree) :
    leads (siblings.map (Tree.relocate φ)) = leads siblings := by
  match siblings with
  | [] => rfl
  | [t] => exact Tree.isLabel_relocate φ t
  | t :: u :: ts => rfl

lemma fixity_relocate (spelling : String) (siblings : List Tree) :
    fixity spelling (siblings.map (Tree.relocate φ)) = fixity spelling siblings := by
  cases siblings <;> simp [fixity]

lemma atom_relocate (registry : Registry) (siblings : List Tree) (t : Token) :
    atom registry (siblings.map (Tree.relocate φ)) (t.relocate φ) =
      (atom registry siblings t).relocate φ := by
  have hkind : (t.relocate φ).kind = t.kind := rfl
  have hname : (t.relocate φ).name = t.name := rfl
  simp only [atom, hkind, hname, leads_relocate, fixity_relocate]
  split
  · split_ifs <;> rfl
  all_goals rfl

lemma atom_ne_hole (registry : Registry) (siblings : List Tree) (t : Token) :
    atom registry siblings t ≠ .hole := by
  unfold atom
  split <;> (try split) <;> simp

/-! ### Steps -/

namespace Progress

lemma touch_relocate (place : Location) :
    (p.relocate φ).touch (φ place) = (p.touch place).relocate φ := by
  obtain ⟨regions, groups, siblings⟩ := p
  cases groups with
  | nil => rfl
  | cons g gs =>
    obtain ⟨opener, name, closer, done, start, outer⟩ := g
    cases start <;> rfl

lemma push_relocate {u : Tree} (hu : u ≠ .hole) :
    (p.relocate φ).push (u.relocate φ) = (p.push u).relocate φ := by
  rw [push, Tree.place_relocate φ hu, touch_relocate]
  rfl

lemma endRegion_relocate (h : ∀ u ∈ p.siblings, u ≠ .hole) :
    (p.relocate φ).endRegion = p.endRegion.relocate φ := by
  obtain ⟨regions, groups, siblings⟩ := p
  cases siblings with
  | nil => rfl
  | cons u us =>
    have hlist := listOf_relocate (φ := φ) h u.place
    have hu := Tree.place_relocate φ (h u List.mem_cons_self)
    simp only [relocate, endRegion, List.map_cons, hu] at hlist ⊢
    rw [hlist]
    rfl

lemma openGroup_relocate (name : String) (closer : TokenKind) :
    (p.relocate φ).openGroup (t.relocate φ) name closer =
      (p.openGroup t name closer).relocate φ := by
  have htouch := p.touch_relocate (φ := φ) t.place
  simp only [openGroup, Token.relocate, htouch]
  rfl

lemma separate?_relocate (h : ∀ u ∈ p.siblings, u ≠ .hole) (t : Token) :
    (p.relocate φ).separate? (t.relocate φ) = (p.separate? t).map (Progress.relocate φ) := by
  obtain ⟨regions, groups, siblings⟩ := p
  cases groups with
  | nil => rfl
  | cons g gs =>
    have hlist := listOf_relocate (φ := φ) h (g.start.getD t.place)
    rw [← Option.getD_map φ] at hlist
    simp only [separate?, relocate, List.map_cons, OpenGroup.relocate, Token.relocate, hlist,
      Option.map_none, Option.map_some, List.map_nil]

lemma close?_relocate (h : ∀ u ∈ p.siblings, u ≠ .hole) (t : Token) :
    (p.relocate φ).close? (t.relocate φ) = (p.close? t).map (Progress.relocate φ) := by
  obtain ⟨regions, groups, siblings⟩ := p
  cases groups with
  | nil => rfl
  | cons g gs =>
    have hlist := listOf_relocate (φ := φ) h (g.start.getD t.place)
    rw [← Option.getD_map φ] at hlist
    have hempty : ((g.done.map (Tree.relocate φ)).isEmpty && (g.start.map φ).isNone) =
        (g.done.isEmpty && g.start.isNone) := by
      cases g.done <;> cases g.start <;> rfl
    simp only [close?, relocate, List.map_cons, OpenGroup.relocate, Token.relocate, hlist, hempty]
    split_ifs <;> simp [relocate]

end Progress

variable {s s' : Source} {m : Mark}

lemma isMoved_unexpected {move : Progress → Progress} (t : Token) :
    IsMoved move (s.unexpected t) (s'.unexpected (t.relocate φ)) := by
  have hplain : Source.plain (t.relocate φ).value = Source.plain t.value := rfl
  rw [Source.unexpected, Source.unexpected, hplain]
  cases Source.plain t.value <;> exact .error rfl

lemma isMoved_orUnexpected (t : Token) (r : Option Progress) :
    IsMoved (Progress.relocate φ) (s.orUnexpected t r)
      (s'.orUnexpected (t.relocate φ) (r.map (Progress.relocate φ))) := by
  cases r with
  | none => exact isMoved_unexpected t
  | some q => exact .ok q

/-- A token has the same effect at other places. -/
lemma isMoved_place (hregistry : s'.registry = s.registry) (h : ∀ u ∈ p.siblings, u ≠ .hole)
    (t : Token) : IsMoved (Progress.relocate φ) (s.place p t)
      (s'.place (p.relocate φ) (t.relocate φ)) := by
  -- the kind of a token is the same at other places, by definition
  rcases kind_cases t.kind with hkind | hkind | hkind | hkind | hkind | ⟨closer, name, hkind⟩ |
    hkind
  · have hgroups : (p.relocate φ).groups.isEmpty = p.groups.isEmpty := by
      simp [Progress.relocate]
    rw [Source.place_of_newline hkind, Source.place_of_newline (t := t.relocate φ) hkind, hgroups]
    refine .ok_of_eq ?_
    split
    · exact Progress.endRegion_relocate h
    · exact Progress.touch_relocate t.place
  · rw [Source.place_of_comma hkind, Source.place_of_comma (t := t.relocate φ) hkind,
      Progress.separate?_relocate h]
    exact isMoved_orUnexpected t _
  · rw [Source.place_of_refused (Or.inl hkind),
      Source.place_of_refused (t := t.relocate φ) (Or.inl hkind)]
    exact isMoved_unexpected t
  · rw [Source.place_of_refused (Or.inr hkind),
      Source.place_of_refused (t := t.relocate φ) (Or.inr hkind)]
    exact isMoved_unexpected t
  · rw [Source.place_of_isCloser hkind, Source.place_of_isCloser (t := t.relocate φ) hkind,
      Progress.close?_relocate h]
    exact isMoved_orUnexpected t _
  · rw [Source.place_of_opens hkind, Source.place_of_opens (t := t.relocate φ) hkind]
    exact .ok_of_eq (Progress.openGroup_relocate name closer)
  · rw [Source.place_of_isAtom hkind, Source.place_of_isAtom (t := t.relocate φ) hkind, hregistry]
    refine .ok_of_eq ?_
    rw [← Progress.push_relocate (atom_ne_hole _ _ t), ← atom_relocate]
    rfl

/-- A mark has the same effect at other places. -/
lemma isMoved_placeMark (hregistry : s'.registry = s.registry)
    (h : ∀ u ∈ p.siblings, u ≠ .hole) (m : Mark) : IsMoved (Progress.relocate φ) (s.placeMark p m)
      (s'.placeMark (p.relocate φ) (m.relocate φ)) := by
  cases m with
  | label t =>
    have hplain : Source.plain (t.relocate φ).value = Source.plain t.value := rfl
    rw [Mark.relocate, Source.placeMark, Source.placeMark, hplain]
    cases Source.plain t.value with
    | error f => exact .error rfl
    | ok text => exact .ok_of_eq (Progress.push_relocate (u := .label t.place text) (by simp))
  | call t => exact .ok_of_eq (Progress.openGroup_relocate t.name .rightParen)
  | single t => exact isMoved_place hregistry h t

lemma IsElement.ne_hole {registry : Registry} {source : List Token} {e : Tree}
    (h : IsElement (Bears registry source) e) : e ≠ .hole := by
  cases h with
  | atom h =>
    cases h with
    | label => simp
    | atom ht hkind siblings => exact atom_ne_hole registry siblings _
  | group => simp

/-- A run ends in the same way at other places. -/
lemma isMoved_foldlM {ms : List Mark} (hregistry : s'.registry = s.registry)
    (hp : IsSound (Bears s.registry ts) p) (hms : ∀ m ∈ ms, m.token ∈ ts) :
    IsMoved (Progress.relocate φ) (ms.foldlM s.placeMark p)
      ((ms.map (Mark.relocate φ)).foldlM s'.placeMark (p.relocate φ)) := by
  induction ms generalizing p with
  | nil => exact .ok p
  | cons m ms ih =>
    have hsiblings : ∀ u ∈ p.siblings, u ≠ .hole := fun u hu => (hp.siblings u hu).ne_hole
    rw [List.map_cons, List.foldlM_cons, List.foldlM_cons]
    refine (isMoved_placeMark hregistry hsiblings m).bind fun p' hp' => ?_
    exact ih (hp.placeMark (hms m List.mem_cons_self) hp')
      fun n hn => hms n (List.mem_cons_of_mem _ hn)

lemma foldlM_relocate {ms : List Mark} (hregistry : s'.registry = s.registry)
    (hp : IsSound (Bears s.registry ts) p) (hms : ∀ m ∈ ms, m.token ∈ ts)
    (hq : ms.foldlM s.placeMark p = .ok q) :
    (ms.map (Mark.relocate φ)).foldlM s'.placeMark (p.relocate φ) = .ok (q.relocate φ) := by
  have hmoved := isMoved_foldlM (φ := φ) hregistry hp hms
  rw [hq] at hmoved
  exact hmoved.eq_ok

lemma siblings_ne_hole (hq : (marks ts).foldlM s.placeMark .start = .ok q) :
    ∀ u ∈ q.siblings, u ≠ .hole := by
  have hsound : IsSound (Bears s.registry ts) q :=
    IsSound.start.foldlM (fun m hm => token_mem_of_mem_marks hm) hq
  exact fun u hu => (hsound.siblings u hu).ne_hole

lemma isMoved_finish (h : ∀ u ∈ q.siblings, u ≠ .hole) :
    IsMoved (List.map (Tree.relocate φ)) (s.finish q) (s'.finish (q.relocate φ)) := by
  cases hgroups : q.groups with
  | nil =>
    have hgroups' : (q.relocate φ).groups = [] := by simp [Progress.relocate, hgroups]
    rw [Source.finish, Source.finish, hgroups, hgroups']
    refine .ok_of_eq ?_
    rw [Progress.endRegion_relocate h]
    simp [Progress.relocate]
  | cons g gs =>
    have hgroups' : (q.relocate φ).groups = (g :: gs).map (OpenGroup.relocate φ) := by
      rw [← hgroups]
      rfl
    rw [Source.finish, Source.finish, hgroups, hgroups']
    exact .error rfl

/-- The regions of a script at other places, or what is wrong with it. Its lines may be different
ones. -/
theorem isMoved_regions (φ : Location → Location) (hregistry : s'.registry = s.registry)
    {last : Token} (hlast : last.kind = .eof) (heof : ∀ t ∈ ts, t.kind ≠ .eof) :
    IsMoved (List.map (Tree.relocate φ)) (s.regions (ts ++ [last]))
      (s'.regions ((ts ++ [last]).map (Token.relocate φ))) := by
  have hlast' : (last.relocate φ).kind = .eof := hlast
  have heof' : ∀ t ∈ ts.map (Token.relocate φ), t.kind ≠ .eof := by
    simpa [Token.relocate] using heof
  rw [List.map_append, List.map_singleton, Source.regions_append_end heof hlast,
    Source.regions_append_end heof' hlast', marks_relocate]
  have hrun : IsMoved (Progress.relocate φ) ((marks ts).foldlM s.placeMark .start) _ :=
    isMoved_foldlM hregistry .start fun m hm => token_mem_of_mem_marks hm
  exact hrun.bind fun q hq => isMoved_finish (siblings_ne_hole hq)

/-- The regions of a script at other places. -/
lemma regions_relocate (φ : Location → Location) (hregistry : s'.registry = s.registry)
    {last : Token} (hlast : last.kind = .eof) (heof : ∀ t ∈ ts, t.kind ≠ .eof) {regions : List Tree}
    (h : s.regions (ts ++ [last]) = .ok regions) :
    s'.regions ((ts ++ [last]).map (Token.relocate φ)) = .ok (regions.map (Tree.relocate φ)) := by
  have hmoved := isMoved_regions φ hregistry hlast heof
  rw [h] at hmoved
  exact hmoved.eq_ok

/-- Grouping does not look at the lines of a source. -/
lemma regions_of_registry_eq (hregistry : s'.registry = s.registry) {last : Token}
    (hlast : last.kind = .eof) (heof : ∀ t ∈ ts, t.kind ≠ .eof) {regions : List Tree}
    (h : s.regions (ts ++ [last]) = .ok regions) : s'.regions (ts ++ [last]) = .ok regions := by
  have hsame := regions_relocate id hregistry hlast heof h
  have htoken : Token.relocate id = id := rfl
  have htree : Tree.relocate id = id := funext Tree.relocate_id
  rwa [htoken, htree, List.map_id, List.map_id] at hsame

end Grouping

end LineScript
