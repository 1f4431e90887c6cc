import LineScript.Proofs.Grouping.Reading
import LineScript.Proofs.Tree.Parts

/-!
# The shape of regions

Grouping makes trees of one shape only: a region is a list of elements, and an element is a call
of lists or comes from a single token (`Bears`). What every token brings with it therefore holds
throughout the regions.
-/

namespace LineScript

namespace Grouping

open Traced

/-! ### Elements and lists -/

/-- A list of elements, which is placed somewhere. -/
abbrev Siblings := Location × List Tree

/-- The call that holds a list. -/
def Siblings.call (l : Siblings) : Tree := .call l.1 Tree.listName l.2

/-- An element of a list, which is a group of lists or has the given property. -/
inductive IsElement (P : Tree → Prop) : Tree → Prop where
  | atom {t : Tree} (h : P t) : IsElement P t
  | group {p : Location} {name : String} {lists : List Siblings}
      (h : ∀ l ∈ lists, ∀ e ∈ l.2, IsElement P e) :
      IsElement P (.call p name (lists.map Siblings.call))

/-- The call that holds a list of such elements. -/
def IsRegion (P : Tree → Prop) (t : Tree) : Prop :=
  ∃ l : Siblings, t = l.call ∧ ∀ e ∈ l.2, IsElement P e

variable {P : Tree → Prop} {t : Tree} {ts lists : List Tree}

lemma exists_siblings (h : ∀ l ∈ lists, IsRegion P l) :
    ∃ ls : List Siblings, lists = ls.map Siblings.call ∧ ∀ l ∈ ls, ∀ e ∈ l.2, IsElement P e := by
  induction lists with
  | nil => exact ⟨[], rfl, by simp⟩
  | cons t lists ih =>
    obtain ⟨l, rfl, hl⟩ := h t List.mem_cons_self
    obtain ⟨ls, rfl, hls⟩ := ih fun u hu => h u (List.mem_cons_of_mem _ hu)
    exact ⟨l :: ls, rfl, List.forall_mem_cons.mpr ⟨hl, hls⟩⟩

lemma IsElement.of_lists {p : Location} {name : String} (h : ∀ l ∈ lists, IsRegion P l) :
    IsElement P (.call p name lists) := by
  obtain ⟨ls, rfl, hls⟩ := exists_siblings h
  exact .group hls

lemma isRegion_listOf (start : Location) (h : ∀ e ∈ ts, IsElement P e) :
    IsRegion P (listOf start ts) := by
  obtain ⟨q, hq⟩ := exists_listOf_reverse start ts.reverse
  rw [List.reverse_reverse] at hq
  exact ⟨(q, ts.reverse), hq, fun e he => h e (List.mem_reverse.mp he)⟩

/-- A property of all calls that every node of a single token has throughout is one of all parts. -/
lemma IsElement.all {N : Tree → Prop} (hcall : ∀ p name ts, N (.call p name ts))
    (hP : ∀ t, P t → t.All N) (h : IsElement P t) : t.All N := by
  induction h with
  | atom h => exact hP _ h
  | group h ih =>
    refine Tree.all_iff.mpr ⟨hcall _ _ _, List.forall_mem_map.mpr fun l hl => ?_⟩
    exact Tree.all_iff.mpr ⟨hcall _ _ _, ih l hl⟩

lemma IsRegion.all {N : Tree → Prop} (hcall : ∀ p name ts, N (.call p name ts))
    (hP : ∀ t, P t → t.All N) (h : IsRegion P t) : t.All N := by
  obtain ⟨l, rfl, hl⟩ := h
  exact Tree.all_iff.mpr ⟨hcall _ _ _, fun e he => (hl e he).all hcall hP⟩

/-! ### The leaves that are read -/

lemma readElements_eq_flatMap (ts : List Tree) : readElements ts = ts.flatMap readElement := by
  induction ts with
  | nil => rfl
  | cons t ts ih => rw [readElements, ih, List.flatMap_cons]

lemma readLists_map_call (ls : List Siblings) :
    readLists (ls.map Siblings.call) = ls.flatMap fun l => l.2.flatMap readElement := by
  induction ls with
  | nil => rfl
  | cons l ls ih =>
    rw [List.map_cons, Siblings.call, readLists, if_pos rfl, ih, readElements_eq_flatMap,
      List.flatMap_cons]

/-- The leaves of an element are among the nodes that are read. -/
lemma IsElement.leaves_eq (hP : ∀ t, P t → t.leaves = (readElement t).filter Tree.isLeaf)
    (h : IsElement P t) : t.leaves = (readElement t).filter Tree.isLeaf := by
  induction h with
  | atom h => exact hP _ h
  | @group p name ls h ih =>
    have hcall : Tree.isLeaf (.call p name (ls.map Siblings.call)) = false := rfl
    rw [Tree.leaves_call, readElement, readLists_map_call,
      List.filter_cons_of_neg (by simp [hcall]), List.filter_flatMap, Tree.leavesList,
      List.flatMap_map]
    apply List.flatMap_congr
    intro l hl
    rw [Siblings.call, Tree.leaves_call, Tree.leavesList, List.filter_flatMap]
    exact List.flatMap_congr (ih l hl)

lemma leavesList_eq_of_isRegion (hP : ∀ t, P t → t.leaves = (readElement t).filter Tree.isLeaf)
    (h : ∀ l ∈ lists, IsRegion P l) :
    Tree.leavesList lists = (readLists lists).filter Tree.isLeaf := by
  obtain ⟨ls, rfl, hls⟩ := exists_siblings h
  have hgroup : IsElement P (.call .unknown "" (ls.map Siblings.call)) := .group hls
  have hleaves := hgroup.leaves_eq hP
  rw [Tree.leaves_call, readElement, List.filter_cons_of_neg (by simp [Tree.isLeaf, Tree.kind?,
    Tree.Kind.isLeaf])] at hleaves
  exact hleaves

/-! ### Nodes of single tokens -/

/-- The trees that tokens of a list become by themselves. -/
inductive Bears (registry : Registry) (ts : List Token) : Tree → Prop where
  | label {t : Token} (ht : t ∈ ts) : Bears registry ts (.label t.place t.value.plain)
  | atom {t : Token} (ht : t ∈ ts) (hkind : isAtom t.kind = true) (siblings : List Tree) :
      Bears registry ts (Grouping.atom registry siblings t)

/-- The possible trees of a token by itself. -/
lemma atom_cases (registry : Registry) (siblings : List Tree) {t : Token}
    (ht : isAtom t.kind = true) :
    (∃ f, t.kind = .symbol ∧ atom registry siblings t = .symbol t.place t.name f) ∨
    (registry.isCallable t.name = true ∧
      atom registry siblings t = .identifier t.place t.name) ∨
    (∃ v, atom registry siblings t = .literal t.place v) ∨
    atom registry siblings t = .variable t.place t.name := by
  cases hkind : t.kind with
  | word =>
    by_cases hlead : (leads siblings && registry.isCallable t.name) = true
    · exact Or.inr (Or.inl ⟨(Bool.and_eq_true _ _ |>.mp hlead).2, by simp [atom, hkind, hlead]⟩)
    · exact Or.inr (Or.inr (Or.inl ⟨t.value, by simp [atom, hkind, hlead]⟩))
  | symbol => exact Or.inl ⟨fixity t.name siblings, rfl, by simp [atom, hkind]⟩
  | «variable» => exact Or.inr (Or.inr (Or.inr (by simp [atom, hkind])))
  | number | string | trueWord | falseWord | nullWord =>
    exact Or.inr (Or.inr (Or.inl (by simp [atom, hkind])))
  | _ => simp [hkind, isAtom] at ht

variable {registry : Registry} {tokens : List Token}

/-- A node of a single token is a label, a known place for an operand, or a symbol of the list. -/
lemma Bears.cases (h : Bears registry tokens t) :
    (∃ p n, t = .label p n) ∨
    (∃ u ∈ tokens, u.kind = .symbol ∧ ∃ f, t = .symbol u.place u.name f) ∨
    (∃ p n, registry.isCallable n = true ∧ t = .identifier p n) ∨
    (∃ p v, t = .literal p v) ∨ ∃ p n, t = .variable p n := by
  cases h with
  | label => exact Or.inl ⟨_, _, rfl⟩
  | @atom u hu hkind siblings =>
    rcases atom_cases registry siblings hkind with ⟨f, hsymbol, heq⟩ | ⟨hcall, heq⟩ | ⟨v, heq⟩ | heq
    · exact Or.inr (Or.inl ⟨u, hu, hsymbol, f, heq⟩)
    · exact Or.inr (Or.inr (Or.inl ⟨_, _, hcall, heq⟩))
    · exact Or.inr (Or.inr (Or.inr (Or.inl ⟨_, _, heq⟩)))
    · exact Or.inr (Or.inr (Or.inr (Or.inr ⟨_, _, heq⟩)))

lemma Bears.children_eq_nil (h : Bears registry tokens t) : t.children = [] := by
  rcases h.cases with ⟨p, n, rfl⟩ | ⟨u, -, -, f, rfl⟩ | ⟨p, n, -, rfl⟩ | ⟨p, v, rfl⟩ |
    ⟨p, n, rfl⟩ <;> rfl

/-! ### What every token preserves -/

/-- All that was grouped so far has the shape of regions. -/
structure IsSound (P : Tree → Prop) (p : Progress) : Prop where
  regions : ∀ r ∈ p.regions, IsRegion P r
  groups : ∀ g ∈ p.groups, (∀ l ∈ g.done, IsRegion P l) ∧ ∀ e ∈ g.outer, IsElement P e
  siblings : ∀ e ∈ p.siblings, IsElement P e

namespace IsSound

variable {p q : Progress} {u : Token}

lemma start : IsSound P .start := ⟨by simp [Progress.start], by simp [Progress.start],
  by simp [Progress.start]⟩

lemma touch (h : IsSound P p) (place : Location) : IsSound P (p.touch place) := by
  obtain ⟨regions, groups, siblings⟩ := p
  cases groups with
  | nil => exact h
  | cons g gs => exact ⟨h.regions, by simpa [Progress.touch] using h.groups, h.siblings⟩

lemma push (h : IsSound P p) (ht : IsElement P t) : IsSound P (p.push t) := by
  have htouch := h.touch t.place
  refine ⟨htouch.regions, htouch.groups, ?_⟩
  exact List.forall_mem_cons.mpr ⟨ht, h.siblings⟩

lemma endRegion (h : IsSound P p) : IsSound P p.endRegion := by
  obtain ⟨regions, groups, siblings⟩ := p
  cases siblings with
  | nil => exact h
  | cons t ts =>
    refine ⟨List.forall_mem_cons.mpr ⟨?_, h.regions⟩, h.groups, by simp [Progress.endRegion]⟩
    exact isRegion_listOf t.place h.siblings

lemma openGroup (h : IsSound P p) (opener : Token) (name : String) (closer : TokenKind) :
    IsSound P (p.openGroup opener name closer) := by
  have htouch := h.touch opener.place
  refine ⟨htouch.regions, ?_, by simp [Progress.openGroup]⟩
  exact List.forall_mem_cons.mpr ⟨⟨by simp, h.siblings⟩, htouch.groups⟩

lemma separate (h : IsSound P p) (hq : p.separate? u = some q) : IsSound P q := by
  obtain ⟨regions, groups, siblings⟩ := p
  cases groups with
  | nil => simp [Progress.separate?] at hq
  | cons g gs =>
    obtain rfl := Option.some.inj hq
    obtain ⟨⟨hdone, houter⟩, hgroups⟩ := List.forall_mem_cons.mp h.groups
    refine ⟨h.regions, List.forall_mem_cons.mpr ⟨⟨?_, houter⟩, hgroups⟩, by simp⟩
    exact List.forall_mem_cons.mpr ⟨isRegion_listOf _ h.siblings, hdone⟩

lemma close (h : IsSound P p) (hq : p.close? u = some q) : IsSound P q := by
  obtain ⟨regions, groups, siblings⟩ := p
  cases groups with
  | nil => simp [Progress.close?] at hq
  | cons g gs =>
    obtain ⟨⟨hdone, houter⟩, hgroups⟩ := List.forall_mem_cons.mp h.groups
    simp only [Progress.close?] at hq
    split_ifs at hq with hcloser hempty
    · obtain rfl := Option.some.inj hq
      refine ⟨h.regions, hgroups, List.forall_mem_cons.mpr ⟨?_, houter⟩⟩
      exact .of_lists (by simp)
    · obtain rfl := Option.some.inj hq
      refine ⟨h.regions, hgroups, List.forall_mem_cons.mpr ⟨?_, houter⟩⟩
      refine .of_lists fun l hl => ?_
      have hlists := List.forall_mem_cons.mpr ⟨isRegion_listOf (g.start.getD u.place) h.siblings,
        hdone⟩
      exact hlists l (List.mem_reverse.mp hl)

end IsSound

lemma token_mem_of_mem_marks {m : Mark} (h : m ∈ marks tokens) : m.token ∈ tokens := by
  fun_induction marks tokens with
  | case1 => simp at h
  | case2 t =>
    obtain rfl := List.mem_singleton.mp h
    exact List.mem_singleton_self t
  | case3 t u ts _ ih =>
    rcases List.mem_cons.mp h with rfl | h
    · exact List.mem_cons_self
    · exact List.mem_cons_of_mem _ (List.mem_cons_of_mem _ (ih h))
  | case4 t u ts _ _ ih =>
    rcases List.mem_cons.mp h with rfl | h
    · exact List.mem_cons_self
    · exact List.mem_cons_of_mem _ (List.mem_cons_of_mem _ (ih h))
  | case5 t u ts _ _ ih =>
    rcases List.mem_cons.mp h with rfl | h
    · exact List.mem_cons_self
    · exact List.mem_cons_of_mem _ (ih h)

variable {s : Source} {p q : Progress}

/-- A mark adds an element that comes from its token, or opens, separates or closes a group. -/
lemma IsSound.placeMark {m : Mark} (h : IsSound (Bears s.registry tokens) p)
    (hm : m.token ∈ tokens) (hq : s.placeMark p m = .ok q) :
    IsSound (Bears s.registry tokens) q := by
  cases m with
  | label t =>
    obtain ⟨text, htext, hq⟩ := bind_eq_ok_iff.mp hq
    obtain rfl := Except.ok.inj hq
    obtain rfl := eq_plain_of_plain htext
    exact h.push (.atom (.label hm))
  | call t =>
    obtain rfl := Except.ok.inj hq
    exact h.openGroup t t.name .rightParen
  | single t =>
    rcases Source.place_cases hq with ⟨-, rfl⟩ | ⟨-, hq⟩ | ⟨-, hq⟩ | ⟨closer, name, -, rfl⟩ |
      ⟨hatom, rfl⟩
    · split_ifs
      · exact h.endRegion
      · exact h.touch t.place
    · exact h.separate hq
    · exact h.close hq
    · exact h.openGroup t name closer
    · exact h.push (.atom (.atom hm hatom p.siblings))

lemma IsSound.foldlM {ms : List Mark} (h : IsSound (Bears s.registry tokens) p)
    (hms : ∀ m ∈ ms, m.token ∈ tokens) (hq : ms.foldlM s.placeMark p = .ok q) :
    IsSound (Bears s.registry tokens) q := by
  induction ms generalizing p with
  | nil =>
    obtain rfl := Except.ok.inj hq
    exact h
  | cons m ms ih =>
    obtain ⟨p', hp', hq⟩ := bind_eq_ok_iff.mp hq
    exact ih (h.placeMark (hms m List.mem_cons_self) hp')
      (fun n hn => hms n (List.mem_cons_of_mem _ hn)) hq

/-- Regions are lists of elements, and an element that is no group comes from a single token. -/
theorem isRegion_of_mem_regions {last : Token} (hlast : last.kind = .eof)
    (heof : ∀ t ∈ tokens, t.kind ≠ .eof) {regions : List Tree}
    (h : s.regions (tokens ++ [last]) = .ok regions) :
    ∀ r ∈ regions, IsRegion (Bears s.registry (tokens ++ [last])) r := by
  obtain ⟨q, hq, -, rfl⟩ := (Source.regions_eq_ok_iff heof hlast).mp h
  have hsound : IsSound (Bears s.registry (tokens ++ [last])) q :=
    IsSound.start.foldlM (fun m hm => List.mem_append_left _ (token_mem_of_mem_marks hm)) hq
  intro r hr
  exact hsound.endRegion.regions r (List.mem_reverse.mp hr)

/-! ### The nodes that tokens stand for -/

/-- The parts of an element are lists or are read. -/
lemma IsElement.mem_readElement (hP : ∀ t, P t → t.parts = readElement t) (h : IsElement P t)
    {u : Tree} (hu : u ∈ t.parts) : u ∈ readElement t ∨ ∃ l : Siblings, u = l.call := by
  induction h with
  | atom h => exact Or.inl (hP _ h ▸ hu)
  | @group p name ls h ih =>
    rw [readElement, readLists_map_call]
    rcases List.mem_cons.mp hu with rfl | hu
    · exact Or.inl List.mem_cons_self
    · obtain ⟨t, ht, hu⟩ := Tree.mem_partsList.mp hu
      obtain ⟨l, hl, rfl⟩ := List.mem_map.mp ht
      rcases List.mem_cons.mp hu with rfl | hu
      · exact Or.inr ⟨l, rfl⟩
      · obtain ⟨e, he, hu⟩ := Tree.mem_partsList.mp hu
        refine (ih l hl e he hu).imp_left fun hread => List.mem_cons_of_mem _ ?_
        exact List.mem_flatMap.mpr ⟨l, hl, List.mem_flatMap.mpr ⟨e, he, hread⟩⟩

lemma Bears.parts_eq (h : Bears registry tokens t) : t.parts = readElement t := by
  rcases h.cases with ⟨p, n, rfl⟩ | ⟨u, -, -, f, rfl⟩ | ⟨p, n, -, rfl⟩ | ⟨p, v, rfl⟩ |
    ⟨p, n, rfl⟩ <;> rfl

/-- The nodes of regions stand for tokens. -/
lemma covers_regions {last : Token} (hlast : last.kind = .eof) (heof : ∀ t ∈ tokens, t.kind ≠ .eof)
    {regions : List Tree} (h : s.regions (tokens ++ [last]) = .ok regions) :
    Covers (occurrences none (tokens ++ [last])) (readLists regions) := by
  obtain ⟨q, hq, hgroups, rfl⟩ := (Source.regions_eq_ok_iff heof hlast).mp h
  have hheld : Holds [last] q ([] ++ occurrences none (tokens ++ [last])) :=
    Holds.marks hlast (Holds.start (tokens ++ [last])) hq fun t _ => by simp [StandsAlone]
  exact hheld.covers_endRegion hgroups

lemma map_fst_occurrences_sublist (previous : Option Token) (ts : List Token) :
    ((occurrences previous ts).map Prod.fst).Sublist ts := by
  induction ts generalizing previous with
  | nil => exact .slnil
  | cons t ts ih =>
    rw [occurrences, List.map_append]
    split_ifs
    · exact (ih (some t)).cons_cons t
    · exact (ih (some t)).cons t

lemma exists_append_of_mem_occurrences {previous : Option Token} {ts : List Token} {o : Occurrence}
    (h : o ∈ occurrences previous ts) : ∃ before, ts = before ++ o.1 :: o.2 := by
  induction ts generalizing previous with
  | nil => cases h
  | cons t ts ih =>
    rw [occurrences] at h
    rcases List.mem_append.mp h with h | h
    · split_ifs at h
      · obtain rfl := List.mem_singleton.mp h
        exact ⟨[], rfl⟩
      · cases h
    · obtain ⟨before, rfl⟩ := ih h
      exact ⟨t :: before, rfl⟩

lemma Covers.exists_represents {os : List Occurrence} {nodes : List Tree} (h : Covers os nodes)
    {u : Tree} (hu : u ∈ nodes) : ∃ o ∈ os, Represents o.1 o.2 u := by
  induction h with
  | nil => cases hu
  | cons hnode _ ih =>
    rcases List.mem_cons.mp hu with rfl | hu
    · exact ⟨_, List.mem_cons_self, hnode⟩
    · obtain ⟨o, ho, hrepresents⟩ := ih hu
      exact ⟨o, List.mem_cons_of_mem _ ho, hrepresents⟩

/-- What holds of lists and of every node that a token of the source stands for holds of all parts
of its regions. -/
theorem all_of_represents {N : Tree → Prop} (hlist : ∀ l : Siblings, N l.call) {last : Token}
    (hlast : last.kind = .eof) (heof : ∀ t ∈ tokens, t.kind ≠ .eof)
    (hnode : ∀ before t us u, tokens ++ [last] = before ++ t :: us → Represents t us u → N u)
    {regions : List Tree} (h : s.regions (tokens ++ [last]) = .ok regions) :
    ∀ r ∈ regions, r.All N := by
  have hread : ∀ u ∈ readLists regions, N u := by
    intro u hu
    obtain ⟨o, ho, hrepresents⟩ := (covers_regions hlast heof h).exists_represents hu
    obtain ⟨before, hsplit⟩ := exists_append_of_mem_occurrences ho
    exact hnode before o.1 o.2 u hsplit hrepresents
  obtain ⟨ls, rfl, hls⟩ := exists_siblings (isRegion_of_mem_regions hlast heof h)
  rw [readLists_map_call] at hread
  intro r hr
  obtain ⟨l, hl, rfl⟩ := List.mem_map.mp hr
  refine Tree.all_iff.mpr ⟨hlist l, fun e he u hu => ?_⟩
  rcases (hls l hl e he).mem_readElement (fun t ht => ht.parts_eq) hu with hmem | ⟨l', rfl⟩
  · exact hread u (List.mem_flatMap.mpr ⟨l, hl, List.mem_flatMap.mpr ⟨e, he, hmem⟩⟩)
  · exact hlist l'

/-! ### The places of leaves -/

lemma place_of_represents {u : Token} {us : List Token} (h : Represents u us t) :
    t.place = u.place := by
  cases h <;> rfl

lemma Bears.leaves_eq (h : Bears registry tokens t) :
    t.leaves = (readElement t).filter Tree.isLeaf := by
  rcases h.cases with ⟨p, n, rfl⟩ | ⟨u, -, -, f, rfl⟩ | ⟨p, n, -, rfl⟩ | ⟨p, v, rfl⟩ |
    ⟨p, n, rfl⟩ <;> rfl

/-- The leaves of regions have places of tokens, and in the order of the tokens. -/
theorem places_leavesList_sublist {last : Token} (hlast : last.kind = .eof)
    (heof : ∀ t ∈ tokens, t.kind ≠ .eof) {regions : List Tree}
    (h : s.regions (tokens ++ [last]) = .ok regions) :
    ((Tree.leavesList regions).map Tree.place).Sublist ((tokens ++ [last]).map Token.place) := by
  have hshape := isRegion_of_mem_regions hlast heof h
  have hplaces : ∀ {os : List Occurrence} {nodes : List Tree}, Covers os nodes →
      nodes.map Tree.place = os.map fun o => o.1.place := by
    intro os nodes hcovers
    induction hcovers with
    | nil => rfl
    | cons hnode _ ih => rw [List.map_cons, List.map_cons, place_of_represents hnode, ih]
  rw [leavesList_eq_of_isRegion (fun t ht => ht.leaves_eq) hshape]
  refine (List.filter_sublist.map Tree.place).trans ?_
  rw [hplaces (covers_regions hlast heof h)]
  have hsublist := (map_fst_occurrences_sublist none (tokens ++ [last])).map Token.place
  rwa [List.map_map] at hsublist

end Grouping

end LineScript
