import LineScript.Proofs.Grouping.Acceptance
import LineScript.Proofs.Grouping.Composition

/-!
# A label in front of a region

A label in front of the tokens of a region stands at the bottom of the outermost list all the time
they are grouped. Two questions are asked about the siblings of a list: whether the last of them is
an operand, which a label is not, and whether nothing but a label comes before. The second one has
another answer where a label alone came before, so that a function name directly behind it is a
word, as if it stood between quotes. Everything else is grouped as it is without the label.
-/

namespace LineScript

namespace Grouping

open Traced

variable {s : Source} {p q : Progress} {m : Mark} {ms : List Mark} {t : Token} {ts us : List Token}
  {l u : Tree} {siblings : List Tree} {registry : Registry}

/-! ### A tree in front of everything -/

/-- The groups with a tree in front of what is outside of all of them. -/
def groupsBehind (l : Tree) : List OpenGroup → List OpenGroup
  | [] => []
  | [g] => [{ g with outer := g.outer ++ [l] }]
  | g :: h :: gs => g :: groupsBehind l (h :: gs)

namespace Progress

/-- The progress with a tree in front of the outermost list. -/
def behind (p : Progress) (l : Tree) : Progress :=
  ⟨p.regions, groupsBehind l p.groups,
    if p.groups.isEmpty then p.siblings ++ [l] else p.siblings⟩

lemma groups_behind_eq_nil_iff : (p.behind l).groups = [] ↔ p.groups = [] := by
  obtain ⟨regions, groups, siblings⟩ := p
  match groups with
  | [] => rfl
  | [g] => simp [behind, groupsBehind]
  | g :: h :: gs => simp [behind, groupsBehind]

lemma touch_behind (place : Location) : (p.behind l).touch place = (p.touch place).behind l := by
  obtain ⟨regions, groups, siblings⟩ := p
  match groups with
  | [] | [g] | g :: h :: gs => rfl

lemma push_behind (u : Tree) : (p.behind l).push u = (p.push u).behind l := by
  obtain ⟨regions, groups, siblings⟩ := p
  match groups with
  | [] | [g] | g :: h :: gs => rfl

lemma openGroup_behind (name : String) (closer : TokenKind) :
    (p.behind l).openGroup t name closer = (p.openGroup t name closer).behind l := by
  obtain ⟨regions, groups, siblings⟩ := p
  match groups with
  | [] | [g] | g :: h :: gs => rfl

lemma separate?_behind (h : p.separate? t = some q) :
    (p.behind l).separate? t = some (q.behind l) := by
  obtain ⟨regions, groups, siblings⟩ := p
  match groups with
  | [] => cases h
  | [g] | g :: h' :: gs =>
    obtain rfl := Option.some.inj h
    rfl

lemma close?_behind (h : p.close? t = some q) : (p.behind l).close? t = some (q.behind l) := by
  obtain ⟨regions, groups, siblings⟩ := p
  cases groups with
  | nil => cases h
  | cons g gs =>
    by_cases hkind : g.closer = t.kind
    · simp only [close?, if_pos hkind] at h
      obtain rfl := Option.some.inj h
      cases gs with
      | nil | cons => exact if_pos hkind
    · simp [close?, hkind] at h

end Progress

/-! ### One step -/

/-- A label in front is no operand before a step, and makes a difference for a function name
only. -/
lemma atom_append_label (hl : l.isLabel = true)
    (hleads : t.kind = .word → registry.isCallable t.name = true →
      leads (siblings ++ [l]) = leads siblings) :
    atom registry (siblings ++ [l]) t = atom registry siblings t := by
  have hfixity : fixity t.name (siblings ++ [l]) = fixity t.name siblings := by
    cases siblings with
    | nil => cases l <;> first | rfl | cases hl
    | cons => rfl
  unfold atom
  rw [hfixity]
  split
  · next hkind =>
    by_cases hname : registry.isCallable t.name = true
    · rw [hleads hkind hname]
    · simp [hname]
  all_goals rfl

/-- The mark is a bare word that names a function. -/
def Mark.Names (registry : Registry) : Mark → Prop
  | .single t => t.kind = .word ∧ registry.isCallable t.name = true
  | _ => False

lemma placeMark_behind (hl : l.isLabel = true) (h : s.placeMark p m = .ok q)
    (hline : m.endsLine = true → p.groups ≠ [])
    (hleads : m.Names s.registry → p.groups = [] → leads (p.siblings ++ [l]) = leads p.siblings) :
    s.placeMark (p.behind l) m = .ok (q.behind l) := by
  cases m with
  | label t =>
    obtain ⟨text, htext, hq⟩ := bind_eq_ok_iff.mp h
    obtain rfl := Except.ok.inj hq
    rw [Source.placeMark, htext, ok_bind, Progress.push_behind]
    rfl
  | call t =>
    obtain rfl := Except.ok.inj h
    exact congrArg Except.ok (Progress.openGroup_behind t.name .rightParen)
  | single t =>
    refine Source.place_eq_ok_iff.mpr ?_
    rcases Source.place_eq_ok_iff.mp h with ⟨hkind, rfl⟩ | ⟨hkind, hq⟩ | ⟨hkind, hq⟩ |
      ⟨closer, name, hkind, rfl⟩ | ⟨hkind, rfl⟩
    · have hgroups : p.groups ≠ [] := hline (by simp [Mark.endsLine, hkind])
      have hgroups' : (p.behind l).groups ≠ [] := mt Progress.groups_behind_eq_nil_iff.mp hgroups
      refine Or.inl ⟨hkind, ?_⟩
      rw [if_neg (by simpa using hgroups), if_neg (by simpa using hgroups'), Progress.touch_behind]
    · exact Or.inr (Or.inl ⟨hkind, Progress.separate?_behind hq⟩)
    · exact Or.inr (Or.inr (Or.inl ⟨hkind, Progress.close?_behind hq⟩))
    · exact Or.inr (Or.inr (Or.inr (Or.inl
        ⟨closer, name, hkind, (Progress.openGroup_behind name closer).symm⟩)))
    · refine Or.inr (Or.inr (Or.inr (Or.inr ⟨hkind, ?_⟩)))
      have hatom : atom s.registry (p.behind l).siblings t = atom s.registry p.siblings t := by
        by_cases hgroups : p.groups = []
        · have hsiblings : (p.behind l).siblings = p.siblings ++ [l] := by
            simp [Progress.behind, hgroups]
          rw [hsiblings]
          exact atom_append_label hl fun hword hname => hleads ⟨hword, hname⟩ hgroups
        · have hsiblings : (p.behind l).siblings = p.siblings := by
            simp [Progress.behind, hgroups]
          rw [hsiblings]
      rw [hatom, Progress.push_behind]

/-! ### Runs -/

/-- What comes next in the outermost list does not lead it. -/
def NothingLeads (p : Progress) : Prop := p.groups = [] → leads p.siblings = false

lemma leads_cons_of_ne_nil (h : siblings ≠ []) (u : Tree) : leads (u :: siblings) = false := by
  obtain ⟨v, siblings, rfl⟩ := List.exists_cons_of_ne_nil h
  rfl

lemma leads_cons_of_not_isLabel (h : u.isLabel = false) (siblings : List Tree) :
    leads (u :: siblings) = false := by
  cases siblings with
  | nil => exact h
  | cons => rfl

lemma NothingLeads.ne_nil (h : NothingLeads p) (hgroups : p.groups = []) : p.siblings ≠ [] := by
  intro hnil
  have hleads := h hgroups
  rw [hnil] at hleads
  cases hleads

lemma isLabel_atom (registry : Registry) (siblings : List Tree) (t : Token) :
    (atom registry siblings t).isLabel = false := by
  unfold atom
  split <;> (try split) <;> rfl

lemma groups_touch_eq_nil_iff (place : Location) : (p.touch place).groups = [] ↔ p.groups = [] := by
  rw [← List.length_eq_zero_iff, ← List.length_eq_zero_iff, Progress.length_groups_touch]

/-- Only a label that leads the outermost list lets what follows lead it. -/
lemma nothingLeads_placeMark (h : s.placeMark p m = .ok q)
    (hline : m.endsLine = true → p.groups ≠ [])
    (hlabel : ∀ t, m = .label t → p.groups = [] → p.siblings ≠ []) : NothingLeads q := by
  intro hgroups
  cases m with
  | label t =>
    obtain ⟨text, -, hq⟩ := bind_eq_ok_iff.mp h
    obtain rfl := Except.ok.inj hq
    exact leads_cons_of_ne_nil (hlabel t rfl ((groups_touch_eq_nil_iff t.place).mp hgroups)) _
  | call t =>
    obtain rfl := Except.ok.inj h
    cases hgroups
  | single t =>
    rcases Source.place_cases h with ⟨hkind, rfl⟩ | ⟨hkind, hq⟩ | ⟨hkind, hq⟩ |
      ⟨closer, name, hkind, rfl⟩ | ⟨hkind, rfl⟩
    · have hopen : p.groups ≠ [] := hline (by simp [Mark.endsLine, hkind])
      rw [if_neg (by simpa using hopen), groups_touch_eq_nil_iff] at hgroups
      exact absurd hgroups hopen
    · have hlength := (Progress.separate?_keeps hq).2
      rw [hgroups, List.length_nil, eq_comm, List.length_eq_zero_iff] at hlength
      exact absurd hlength (Progress.groups_ne_nil_of_separate? hq)
    · obtain ⟨regions, groups, siblings⟩ := p
      cases groups with
      | nil => cases hq
      | cons g groups =>
        simp only [Progress.close?] at hq
        split_ifs at hq
        all_goals
          obtain rfl := Option.some.inj hq
          exact leads_cons_of_not_isLabel rfl g.outer
    · cases hgroups
    · exact leads_cons_of_not_isLabel (isLabel_atom ..) _

lemma RunsInside.foldlM_eq (h : RunsInside s p ms q) : ms.foldlM s.placeMark p = .ok q := by
  induction h with
  | nil => rfl
  | cons hm hline h ih => rw [List.foldlM_cons, hm, ok_bind, ih]

/-- Such a run is possible from every progress with the same open groups. -/
lemma RunsInside.exists_of_openings_eq {p' : Progress} (h : RunsInside s p ms q)
    (hp : p'.openings = p.openings) : ∃ q', RunsInside s p' ms q' ∧ q'.openings = q.openings := by
  induction h generalizing p' with
  | nil => exact ⟨p', .nil p', hp⟩
  | @cons p r q m ms hm hline h ih =>
    obtain ⟨r', hr', hopenings⟩ := exists_placeMark hp hm
    obtain ⟨q', hrun, hq'⟩ := ih hopenings
    refine ⟨q', .cons hr' (fun hends hgroups => hline hends ?_) hrun, hq'⟩
    rwa [← openings_eq_nil_iff, ← hp, openings_eq_nil_iff]

/-- A label in front makes no difference any more. -/
lemma RunsInside.behind (hl : l.isLabel = true) (h : RunsInside s p ms q) (hp : NothingLeads p) :
    RunsInside s (p.behind l) ms (q.behind l) := by
  induction h with
  | nil => exact .nil _
  | @cons p p' q m ms hm hline h ih =>
    have hstep : s.placeMark (p.behind l) m = .ok (p'.behind l) := by
      refine placeMark_behind hl hm hline fun _ hgroups => ?_
      obtain ⟨v, siblings, hsiblings⟩ := List.exists_cons_of_ne_nil (hp.ne_nil hgroups)
      rw [hp hgroups, hsiblings]
      exact leads_cons_of_ne_nil (by simp) v
    refine .cons hstep (fun hm => mt Progress.groups_behind_eq_nil_iff.mp (hline hm)) (ih ?_)
    exact nothingLeads_placeMark hm hline fun _ _ => hp.ne_nil

/-- From the beginning a label in front makes no difference, unless a function name stands directly
behind another label. -/
lemma RunsInside.behind_start (hl : l.isLabel = true) (h : RunsInside s .start ms q)
    (hname : ∀ t m rest, ms = .label t :: m :: rest → ¬m.Names s.registry) :
    RunsInside s (Progress.start.behind l) ms (q.behind l) := by
  cases h with
  | nil => exact .nil _
  | @cons _ p' _ m ms hm hline h =>
    have hstep : s.placeMark (Progress.start.behind l) m = .ok (p'.behind l) :=
      placeMark_behind hl hm hline fun _ _ => hl
    refine .cons hstep (fun hm => absurd rfl (hline hm)) ?_
    -- Behind a label of its own the next mark leads the list, but not with one more in front.
    by_cases hlabel : ∃ t, m = .label t
    · obtain ⟨t, rfl⟩ := hlabel
      have hsiblings : p'.siblings ≠ [] := by
        obtain ⟨text, -, hp'⟩ := bind_eq_ok_iff.mp hm
        obtain rfl := Except.ok.inj hp'
        exact List.cons_ne_nil _ _
      cases h with
      | nil => exact .nil _
      | @cons _ p'' _ m' ms hm' hline' h =>
        have hstep' : s.placeMark (p'.behind l) m' = .ok (p''.behind l) :=
          placeMark_behind hl hm' hline' fun hnames => absurd hnames (hname t m' ms rfl)
        refine .cons hstep' (fun hm => mt Progress.groups_behind_eq_nil_iff.mp (hline' hm)) ?_
        exact h.behind hl (nothingLeads_placeMark hm' hline' fun _ _ _ => hsiblings)
    · exact h.behind hl (nothingLeads_placeMark hm hline fun t ht => absurd ⟨t, ht⟩ hlabel)

/-! ### Function names behind a label -/

/-- The tokens begin with a label, directly behind which a bare word names a function. -/
inductive NamesBehindLabel (registry : Registry) : List Token → Prop where
  | intro {b c w : Token} {ts : List Token} (hb : canLabel b.kind = true) (hc : c.kind = .colon)
      (hw : w.kind = .word) (hname : registry.isCallable w.name = true) (hfree : IsFree w ts) :
      NamesBehindLabel registry (b :: c :: w :: ts)

/-- The tokens with the third one between quotes. -/
def quoteThird : List Token → List Token
  | b :: c :: w :: ts => b :: c :: { w with kind := .string } :: ts
  | ts => ts

lemma exists_of_marks_eq_label (h : marks ts = .label t :: ms) :
    ∃ c us, ts = t :: c :: us ∧ canLabel t.kind = true ∧ c.kind = .colon ∧ marks us = ms := by
  revert h
  fun_cases marks ts with
  | case3 b c us hmark =>
    intro h
    obtain ⟨hb, rfl⟩ := List.cons.inj h
    obtain rfl := Mark.label.inj hb
    obtain ⟨hcan, hcolon⟩ : canLabel b.kind = true ∧ c.kind = .colon := by simpa using hmark
    exact ⟨c, us, rfl, hcan, hcolon, rfl⟩
  | _ => simp

lemma exists_of_marks_eq_single (h : marks ts = .single t :: ms) :
    ∃ us, ts = t :: us ∧ IsFree t us := by
  revert h
  fun_cases marks ts with
  | case2 u =>
    intro h
    obtain rfl := Mark.single.inj (List.cons.inj h).1
    exact ⟨[], rfl, by simp [IsFree]⟩
  | case5 u v us hlabel hcall =>
    intro h
    obtain rfl := Mark.single.inj (List.cons.inj h).1
    refine ⟨v :: us, rfl, ?_⟩
    intro w hw
    obtain rfl := Option.some.inj hw
    exact ⟨by simpa using hlabel, by simpa using hcall⟩
  | _ => simp

lemma not_names_of_not_namesBehindLabel (h : ¬NamesBehindLabel registry ts)
    (hts : marks ts = .label t :: m :: ms) : ¬m.Names registry := by
  obtain ⟨c, us, rfl, ht, hc, hus⟩ := exists_of_marks_eq_label hts
  cases m with
  | label | call => exact id
  | single w =>
    rintro ⟨hw, hname⟩
    obtain ⟨us, rfl, hfree⟩ := exists_of_marks_eq_single hus
    exact h (.intro ht hc hw hname hfree)

lemma NamesBehindLabel.of_relocate {φ : Location → Location}
    (h : NamesBehindLabel registry (ts.map (Token.relocate φ))) : NamesBehindLabel registry ts := by
  generalize heq : ts.map (Token.relocate φ) = us at h
  obtain ⟨hb, hc, hw, hname, hfree⟩ := h
  obtain ⟨b, ts, rfl, rfl, hbehind⟩ := List.map_eq_cons_iff.mp heq
  obtain ⟨c, ts, rfl, rfl, hrest⟩ := List.map_eq_cons_iff.mp hbehind
  obtain ⟨w, ts, rfl, rfl, rfl⟩ := List.map_eq_cons_iff.mp hrest
  refine .intro hb hc hw hname fun u hu => ?_
  exact hfree (u.relocate φ) (by simpa using ⟨u, hu, rfl⟩)

lemma NamesBehindLabel.relocate (h : NamesBehindLabel registry ts) (φ : Location → Location) :
    NamesBehindLabel registry (ts.map (Token.relocate φ)) := by
  obtain ⟨hb, hc, hw, hname, hfree⟩ := h
  refine .intro hb hc hw hname fun u hu => ?_
  obtain ⟨v, hv, rfl⟩ : ∃ v, v ∈ List.head? _ ∧ Token.relocate φ v = u := by
    simpa [List.head?_map] using hu
  exact hfree v hv

lemma quoteThird_map_relocate (φ : Location → Location) (ts : List Token) :
    quoteThird (ts.map (Token.relocate φ)) = (quoteThird ts).map (Token.relocate φ) := by
  match ts with
  | [] | [_] | [_, _] | _ :: _ :: _ :: _ => rfl

lemma IsFree.quoted {w : Token} (h : IsFree w ts) (hw : w.kind = .word) :
    IsFree { w with kind := .string } ts := by
  intro u hu
  refine ⟨?_, by simp⟩
  rintro ⟨-, hcolon⟩
  exact (h u hu).1 ⟨by simp [hw, canLabel], hcolon⟩

/-- A text behind a label becomes what a function name becomes that has another label in front. -/
lemma RunsInside.behind_quoted (hl : l.isLabel = true) (hnames : NamesBehindLabel s.registry ts)
    (h : RunsInside s .start (marks (quoteThird ts)) q) :
    RunsInside s (Progress.start.behind l) (marks ts) (q.behind l) := by
  obtain @⟨b, c, w, us, hb, hc, hw, hname, hfree⟩ := hnames
  rw [quoteThird, marks_label hb hc, marks_of_isFree (hfree.quoted hw)] at h
  rw [marks_label hb hc, marks_of_isFree hfree]
  rcases h with _ | @⟨_, p, _, _, _, hp, -, h⟩
  rcases h with _ | @⟨_, p', _, _, _, hp', -, h⟩
  obtain ⟨text, -, hlabel⟩ := bind_eq_ok_iff.mp hp
  obtain rfl := Except.ok.inj hlabel
  obtain rfl := Except.ok.inj hp'
  have hstep : s.placeMark (Progress.start.behind l) (.label b) =
      .ok ((Progress.start.push (.label b.place text)).behind l) :=
    placeMark_behind hl hp (by simp [Mark.endsLine]) fun _ _ => hl
  -- behind two labels the word is no function name
  have hword : s.placeMark ((Progress.start.push (.label b.place text)).behind l) (.single w) =
      .ok (((Progress.start.push (.label b.place text)).push (.literal w.place w.value)).behind
        l) := by
    have hatom : atom s.registry [.label b.place text, l] w = .literal w.place w.value := by
      simp [atom, hw, leads]
    rw [Source.placeMark, Source.place_of_isAtom (by rw [hw]; rfl), ← Progress.push_behind, ← hatom]
    rfl
  refine .cons hstep (by simp [Mark.endsLine]) (.cons hword (by simp [Mark.endsLine, hw]) ?_)
  exact h.behind hl fun _ => rfl

/-! ### Regions -/

lemma listOf_concat (place : Location) (siblings : List Tree) (l : Tree) :
    listOf place (siblings ++ [l]) = .call l.place Tree.listName (l :: siblings.reverse) := by
  simp [listOf]

/-- Tokens make up the region of the siblings that they are grouped as. -/
lemma formsRegion_of_runsInside (heof : ∀ t ∈ ts, t.kind ≠ .eof) (hlines : LinesInside 0 ts)
    (h : RunsInside s .start (marks ts) ⟨[], [], siblings ++ [l]⟩) :
    FormsRegion s.registry ts (.call l.place Tree.listName (l :: siblings.reverse)) := by
  let last : Token := ⟨.eof, .null, .unknown⟩
  have hregions : s.regions (ts ++ [last]) =
      .ok [.call l.place Tree.listName (l :: siblings.reverse)] := by
    refine (Source.regions_eq_ok_iff heof rfl).mpr ⟨_, h.foldlM_eq, rfl, ?_⟩
    cases siblings with
    | nil => rfl
    | cons u siblings =>
      have hlist := listOf_concat u.place (u :: siblings) l
      exact congrArg (fun t => [t]) hlist.symm
  exact .of_regions heof hlines rfl hregions

lemma runsInside_label {a c : Token} {word : String} (ha : a.kind = .word)
    (hword : a.value = .text word) (hc : c.kind = .colon)
    (h : RunsInside s (Progress.start.behind (.label a.place word)) (marks ts) q) :
    RunsInside s .start (marks (a :: c :: ts)) q := by
  have hplain : Source.plain a.value = .ok word := by
    rw [hword]
    rfl
  have hlabel : s.placeMark .start (.label a) =
      .ok (Progress.start.behind (.label a.place word)) := by
    rw [Source.placeMark, hplain]
    rfl
  rw [marks_label (by simp [ha, canLabel]) hc]
  exact .cons hlabel (by simp [Mark.endsLine]) h

/-- A label with the tokens behind it makes up a region, if these are grouped as siblings behind
it. -/
lemma formsRegion_label {a c : Token} {word : String} (ha : a.kind = .word)
    (hword : a.value = .text word) (hc : c.kind = .colon) (heof : ∀ t ∈ ts, t.kind ≠ .eof)
    (hlines : LinesInside 0 ts) (h : RunsInside s
      (Progress.start.behind (.label a.place word)) (marks ts)
      (Progress.behind ⟨[], [], siblings⟩ (.label a.place word))) :
    FormsRegion s.registry (a :: c :: ts)
      (.call a.place Tree.listName (.label a.place word :: siblings.reverse)) := by
  have hall : ∀ t ∈ a :: c :: ts, t.kind ≠ .eof := by
    simp only [List.forall_mem_cons]
    exact ⟨by simp [ha], by simp [hc], heof⟩
  have hself : Leads 0 0 [a, c] :=
    (leads_self (by rw [ha]; rfl) (by rw [ha]; rfl) 0).append
      (leads_self (by rw [hc]; rfl) (by rw [hc]; rfl) 0)
  have hline : LinesInside 0 [a, c] := linesInside_of_ne_newline (by simp [ha, hc]) 0
  exact formsRegion_of_runsInside hall (hline.append hself hlines) (runsInside_label ha hword hc h)

/-- If no name is behind a label, another label in front stands before what the tokens are grouped
as by themselves. -/
lemma FormsRegion.behind_label (h : FormsRegion registry ts region)
    (hnames : ¬NamesBehindLabel registry ts) : ∃ siblings, siblings ≠ [] ∧
      (∀ place, listOf place siblings = region) ∧
      ∀ {a c : Token} {word : String}, a.kind = .word → a.value = .text word → c.kind = .colon →
        FormsRegion registry (a :: c :: ts)
          (.call a.place Tree.listName (.label a.place word :: siblings.reverse)) := by
  let s : Source := ⟨[], registry⟩
  obtain ⟨siblings, hne, hrun, -, -, hlist⟩ := FormsRegion.exists_run (s := s) h
  refine ⟨siblings, hne, hlist, fun {a c word} ha hword hc => ?_⟩
  have hbehind := hrun.behind_start (l := .label a.place word) rfl fun b m rest hmarks =>
    not_names_of_not_namesBehindLabel hnames hmarks
  exact formsRegion_label (s := s) ha hword hc h.ne_eof h.lines hbehind

lemma NamesBehindLabel.ne_eof_quoteThird (hnames : NamesBehindLabel registry ts)
    (h : ∀ t ∈ ts, t.kind ≠ .eof) : ∀ t ∈ quoteThird ts, t.kind ≠ .eof := by
  obtain ⟨hb, hc, hw, hname, hfree⟩ := hnames
  simp only [quoteThird, List.forall_mem_cons] at h ⊢
  exact ⟨h.1, h.2.1, by simp, h.2.2.2⟩

/-- Between quotes a word is in the same group. -/
lemma NamesBehindLabel.linesInside_quoteThird (hnames : NamesBehindLabel registry ts)
    (h : LinesInside 0 ts) : LinesInside 0 (quoteThird ts) := by
  obtain @⟨b, c, w, rest, hb, hc, hw, hname, hfree⟩ := hnames
  have hatom := isAtom_of_canLabel hb
  have hpair : Leads 0 0 [b, c] :=
    (leads_self (isOpener_eq_false_of_isAtom hatom) (isCloser_eq_false_of_isAtom hatom) 0).append
      (leads_self (by rw [hc]; rfl) (by rw [hc]; rfl) 0)
  have hplain : Leads 0 0 [b, c, w] :=
    hpair.append (leads_self (by rw [hw]; rfl) (by rw [hw]; rfl) 0)
  have hquoted : Leads 0 0 [b, c, { w with kind := .string }] :=
    hpair.append (leads_self rfl rfl 0)
  have hline : LinesInside 0 [b, c, { w with kind := .string }] := by
    refine linesInside_of_ne_newline ?_ 0
    simp only [List.forall_mem_cons]
    refine ⟨?_, by simp [hc], by simp, by simp⟩
    rintro hkind
    rw [hkind] at hatom
    cases hatom
  exact hline.append hquoted (hplain.linesInside h)

/-- With the name between quotes the tokens are grouped like before, behind the same label. -/
lemma RunsInside.exists_quoted (hnames : NamesBehindLabel s.registry ts)
    (h : RunsInside s .start (marks ts) ⟨[], [], siblings⟩) : ∃ l us, l.isLabel = true ∧
      RunsInside s .start (marks (quoteThird ts)) ⟨[], [], us ++ [l]⟩ := by
  obtain @⟨b, c, w, rest, hb, hc, hw, hname, hfree⟩ := hnames
  rw [marks_label hb hc, marks_of_isFree hfree] at h
  rw [quoteThird, marks_label hb hc, marks_of_isFree (hfree.quoted hw)]
  rcases h with _ | @⟨_, p, _, _, _, hp, -, h⟩
  rcases h with _ | @⟨_, p', _, _, _, hp', -, h⟩
  obtain ⟨text, -, hlabel⟩ := bind_eq_ok_iff.mp hp
  obtain rfl := Except.ok.inj hlabel
  have hopenings : p'.openings = [] := by
    rw [Source.placeMark, Source.place_of_isAtom (by rw [hw]; rfl)] at hp'
    obtain rfl := Except.ok.inj hp'
    rfl
  -- the text alone leaves no group open either, so that the rest can be placed behind it
  let alone : Progress := ⟨[], [], [.literal w.place w.value]⟩
  have halone : alone.openings = p'.openings := hopenings.symm
  obtain ⟨⟨regions, groups, us⟩, hrun, hq⟩ := h.exists_of_openings_eq halone
  obtain rfl : regions = [] := hrun.regions_eq
  obtain rfl : groups = [] := openings_eq_nil_iff.mp hq
  let l : Tree := .label b.place text
  have hbehind : RunsInside s ⟨[], [], [.literal w.place w.value, l]⟩ (marks rest)
      ⟨[], [], us ++ [l]⟩ :=
    hrun.behind (l := l) rfl fun _ => rfl
  refine ⟨l, us, rfl, .cons hp (by simp [Mark.endsLine]) ?_⟩
  exact .cons rfl (by simp [Mark.endsLine]) hbehind

/-- Tokens in which a name is behind a label make up a region also with the name between quotes, and
with another label in front they make up what follows this label in a region. -/
lemma NamesBehindLabel.formsRegion (hnames : NamesBehindLabel registry ts)
    (h : FormsRegion registry ts region) : ∃ l us, l.isLabel = true ∧
      FormsRegion registry (quoteThird ts) (.call l.place Tree.listName (l :: us)) ∧
      ∀ {a c : Token} {word : String}, a.kind = .word → a.value = .text word → c.kind = .colon →
        FormsRegion registry (a :: c :: ts)
          (.call a.place Tree.listName (.label a.place word :: l :: us)) := by
  let s : Source := ⟨[], registry⟩
  obtain ⟨siblings, -, hrun, -⟩ := FormsRegion.exists_run (s := s) h
  obtain ⟨l, us, hl, hquoted⟩ := RunsInside.exists_quoted (s := s) hnames hrun
  refine ⟨l, us.reverse, hl, ?_, fun {a c word} ha hword hc => ?_⟩
  · exact formsRegion_of_runsInside (s := s) (hnames.ne_eof_quoteThird h.ne_eof)
      (hnames.linesInside_quoteThird h.lines) hquoted
  · have hregion := formsRegion_label (s := s) ha hword hc h.ne_eof h.lines
      (RunsInside.behind_quoted rfl hnames hquoted)
    rwa [List.reverse_append] at hregion

end Grouping

end LineScript
