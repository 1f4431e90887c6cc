import LineScript.Proofs.Grouping.Acceptance
import LineScript.Proofs.Grouping.Occurrence

/-!
# Regions hold their tokens

Read in order, the regions have one node for each token that stands for something, and a group has
as many argument lists as its commas say. While tokens are read the nodes are spread over the
complete regions, the groups that are open and the current list; `Holds` says that together they
are still the tokens read so far, and that the commas to come will complete the count of every
open group.
-/

namespace LineScript

namespace Grouping

open Traced

variable {t u : Token} {ts rest rest' : List Token} {depth depth' : Nat}

/-! ### Open groups -/

/-- The regions and open groups hold the tokens up to the current list, those of the regions being
`base`. Behind each opening token there are as many direct commas as its group has complete
argument lists and commas to come. -/
inductive Opened (base : List Occurrence) (rest : List Token) :
    Nat → List OpenGroup → List Occurrence → Prop where
  | nil {depth : Nat} : Opened base rest depth [] base
  | cons {depth : Nat} {g : OpenGroup} {gs : List OpenGroup} {os outer inner : List Occurrence}
      {o : Occurrence} {following : List Token}
      (h : Opened base rest (depth + 1) gs os)
      (houter : Covers outer (readElements g.outer.reverse))
      (hinner : Covers inner (readLists g.done.reverse))
      (ho : ∀ lists : List Tree, lists.length = argumentCount following →
        Represents o.1 o.2 (.call g.opener.place g.name lists))
      (hcommas : directCommas 0 following = g.done.length + directCommas depth rest)
      (hstart : depth ≠ 0 → g.start ≠ none)
      (hfresh : g.done = [] → g.start = none → following = rest)
      (hbegun : g.done ≠ [] ∨ g.start ≠ none → following.head?.any (isCloser ·.kind) = false) :
      Opened base rest depth (g :: gs) (os ++ (outer ++ o :: inner))

namespace Opened

variable {base os : List Occurrence} {gs : List OpenGroup} {p : Progress}

/-- Tokens that leave the commas to come as they are leave groups as they are that are not fresh. -/
lemma advance (h : Opened base rest depth gs os) (hstart : ∀ g ∈ gs.head?, g.start ≠ none)
    (hcommas : ∀ k, directCommas (depth + k) rest = directCommas (depth' + k) rest') :
    Opened base rest' depth' gs os := by
  induction h generalizing depth' with
  | nil => exact .nil
  | @cons depth g gs os outer inner o following h houter hinner ho hcommas' _ hfresh hbegun ih =>
    have hg : g.start ≠ none := hstart g rfl
    refine .cons (ih ?_ ?_) houter hinner ho ?_ (fun _ => hg) (fun _ hnone => absurd hnone hg)
      hbegun
    · intro g' hg'
      cases h with
      | nil => simp at hg'
      | cons _ _ _ _ _ hstart' =>
        obtain rfl := Option.some.inj hg'
        exact hstart' (by omega)
    · intro k
      rw [Nat.add_assoc, Nat.add_assoc]
      exact hcommas (1 + k)
    · rw [hcommas']
      exact congrArg _ (hcommas 0)

lemma head_start_ne_none (h : Opened base rest (depth + 1) gs os) :
    ∀ g ∈ gs.head?, g.start ≠ none := by
  intro g hg
  cases h with
  | nil => simp at hg
  | cons _ _ _ _ _ hstart =>
    obtain rfl := Option.some.inj hg
    exact hstart (by omega)

/-- A group that meets a token that closes nothing is not closed where it was opened. -/
lemma head_not_closer {g : OpenGroup} {following : List Token} (ht : isCloser t.kind = false)
    (hfresh : g.done = [] → g.start = none → following = t :: rest)
    (hbegun : g.done ≠ [] ∨ g.start ≠ none → following.head?.any (isCloser ·.kind) = false) :
    following.head?.any (isCloser ·.kind) = false := by
  by_cases hg : g.done = [] ∧ g.start = none
  · rw [hfresh hg.1 hg.2]
    exact ht
  · exact hbegun (by tauto)

/-- A token that closes nothing makes the innermost group one that is not fresh. -/
lemma touch (h : Opened base (t :: rest) 0 p.groups os) (ht : isCloser t.kind = false)
    (place : Location) : Opened base (t :: rest) 0 (p.touch place).groups os := by
  obtain ⟨regions, groups, siblings⟩ := p
  cases h with
  | nil => exact .nil
  | @cons _ g gs os outer inner o following h houter hinner ho hcommas hstart hfresh hbegun =>
    refine .cons h houter hinner ho hcommas (by simp) ?_ ?_
    · intro _ hnone
      simp at hnone
    · intro _
      exact head_not_closer ht hfresh hbegun

end Opened

lemma touch_head_start_ne_none (p : Progress) (place : Location) :
    ∀ g ∈ (p.touch place).groups.head?, g.start ≠ none := by
  obtain ⟨regions, groups, siblings⟩ := p
  intro g hg
  cases groups with
  | nil => simp [Progress.touch] at hg
  | cons g' gs =>
    obtain rfl : _ = g := Option.some.inj hg
    simp

/-! ### What every token preserves -/

/-- Regions, open groups and the current list hold the tokens read so far. -/
def Holds (rest : List Token) (p : Progress) (os : List Occurrence) : Prop :=
  ∃ base before current, os = before ++ current ∧ Covers base (readLists p.regions.reverse) ∧
    Opened base rest 0 p.groups before ∧ Covers current (readElements p.siblings.reverse) ∧
    ∀ g ∈ p.groups.head?, g.start = none → p.siblings = []

namespace Holds

variable {p q : Progress} {os new : List Occurrence}

lemma start (rest : List Token) : Holds rest .start [] :=
  ⟨[], [], [], rfl, .nil, .nil, .nil, by simp [Progress.start]⟩

/-- A touched list is passed on to the tokens behind. -/
lemma touch (h : Holds (t :: rest') p os) (ht : isCloser t.kind = false)
    (hcommas : ∀ k, directCommas k (t :: rest') = directCommas k rest) (place : Location) :
    Holds rest (p.touch place) os := by
  obtain ⟨base, before, current, rfl, hbase, hopened, hcurrent, -⟩ := h
  refine ⟨base, before, current, rfl, ?_, ?_, by simpa using hcurrent, ?_⟩
  · obtain ⟨regions, groups, siblings⟩ := p
    cases groups <;> exact hbase
  · apply (hopened.touch ht place).advance (touch_head_start_ne_none p place)
    simpa using hcommas
  · intro g hg hnone
    exact absurd hnone (touch_head_start_ne_none p place g hg)

lemma push (h : Holds (t :: rest') p os) (ht : isCloser t.kind = false)
    (hcommas : ∀ k, directCommas k (t :: rest') = directCommas k rest) {node : Tree}
    (hnode : Covers new (readElement node)) : Holds rest (p.push node) (os ++ new) := by
  obtain ⟨base, before, current, rfl, hbase, hopened, hcurrent, -⟩ :=
    h.touch ht hcommas node.place
  refine ⟨base, before, current ++ new, List.append_assoc .., hbase, hopened, ?_, ?_⟩
  · have hsiblings : readElements (p.push node).siblings.reverse =
        readElements (p.touch node.place).siblings.reverse ++ readElement node := by
      simp [Progress.push, readElements_append, readElements]
    rw [hsiblings]
    exact hcurrent.append hnode
  · intro g hg hnone
    exact absurd hnone (touch_head_start_ne_none p node.place g hg)

lemma openGroup {opener : Token} {name : String} {closer : TokenKind} {o : Occurrence}
    (h : Holds (t :: rest') p os) (ht : isCloser t.kind = false)
    (hcommas : ∀ k, directCommas k (t :: rest') = directCommas (1 + k) rest)
    (ho : ∀ lists : List Tree, lists.length = argumentCount rest →
      Represents o.1 o.2 (.call opener.place name lists)) :
    Holds rest (p.openGroup opener name closer) (os ++ [o]) := by
  obtain ⟨base, before, current, rfl, hbase, hopened, hcurrent, -⟩ := h
  refine ⟨base, before ++ (current ++ [o]), [], by simp, ?_, ?_, .nil, ?_⟩
  · obtain ⟨regions, groups, siblings⟩ := p
    cases groups <;> exact hbase
  · have houter : Opened base rest 1 (p.touch opener.place).groups before := by
      apply (hopened.touch ht opener.place).advance (touch_head_start_ne_none p opener.place)
      simpa using hcommas
    exact .cons houter hcurrent .nil ho (by simp) (by simp) (fun _ _ => rfl) (by simp)
  · intro g hg hnone
    rfl

lemma separate (h : Holds (t :: rest) p os) (ht : t.kind = .comma)
    (hq : p.separate? t = some q) : Holds rest q os := by
  obtain ⟨base, before, current, rfl, hbase, hopened, hcurrent, -⟩ := h
  obtain ⟨regions, groups, siblings⟩ := p
  cases hopened with
  | nil => simp [Progress.separate?] at hq
  | @cons _ g gs os outer inner o following h houter hinner ho hcommas hstart hfresh hbegun =>
    obtain rfl := Option.some.inj hq
    have hopened' : Opened base rest 1 gs os := h.advance h.head_start_ne_none fun k => by
      rw [directCommas_of_comma ht]
      simp
    refine ⟨base, os ++ (outer ++ o :: (inner ++ current)), [], by simp, hbase, ?_, .nil, ?_⟩
    · refine .cons hopened' houter ?_ ho ?_ (by simp) (by simp) ?_
      · rw [List.reverse_cons, readLists_append, readLists_listOf]
        exact hinner.append hcurrent
      · rw [hcommas, directCommas_of_comma ht]
        simp
        omega
      · intro _
        exact Opened.head_not_closer (by rw [ht]; rfl) hfresh hbegun
    · intro g hg hnone
      rfl

lemma close (h : Holds (t :: rest) p os) (ht : isCloser t.kind = true)
    (hq : p.close? t = some q) : Holds rest q os := by
  obtain ⟨base, before, current, rfl, hbase, hopened, hcurrent, hsiblings⟩ := h
  obtain ⟨regions, groups, siblings⟩ := p
  cases hopened with
  | nil => simp [Progress.close?] at hq
  | @cons _ g gs os outer inner o following h houter hinner ho hcommas hstart hfresh hbegun =>
    have hopened' : Opened base rest 0 gs os := h.advance h.head_start_ne_none fun k => by
      rw [Nat.zero_add, Nat.zero_add, Nat.add_comm, directCommas_of_closer ht]
    obtain ⟨children, hcount, hread, rfl⟩ : ∃ children : List Tree,
        children.length = argumentCount following ∧
        Covers (inner ++ current) (readLists children) ∧
        q = ⟨regions, gs, .call g.opener.place g.name children :: g.outer⟩ := by
      simp only [Progress.close?] at hq
      -- a group is closed where it was opened, or its last list is the one behind the last comma
      split_ifs at hq with hcloser hempty
      · obtain ⟨hdone, hnone⟩ : g.done = [] ∧ g.start = none := by simpa using hempty
        refine ⟨[], ?_, ?_, (Option.some.inj hq).symm⟩
        · rw [hfresh hdone hnone]
          simp [argumentCount, ht]
        · have hnil := hsiblings g rfl hnone
          dsimp only at hnil hcurrent
          rw [hdone] at hinner
          rw [hnil] at hcurrent
          exact hinner.append hcurrent
      · refine ⟨_, ?_, ?_, (Option.some.inj hq).symm⟩
        · have hfirst := hbegun (by simp at hempty; tauto)
          rw [directCommas_zero_of_closer ht] at hcommas
          simp [argumentCount, hfirst, hcommas]
        · rw [List.reverse_cons, readLists_append, readLists_listOf]
          exact hinner.append hcurrent
    refine ⟨base, os, outer ++ o :: (inner ++ current), by simp, hbase, hopened', ?_, ?_⟩
    · rw [List.reverse_cons, readElements_append, readElements, readElement, readElements,
        List.append_nil]
      exact houter.append (.cons (ho children hcount) hread)
    · intro g' hg' hnone
      exact absurd hnone (h.head_start_ne_none g' hg')

/-- Where no group is open a complete region is all that the current list leaves. -/
lemma covers_endRegion (h : Holds rest p os) (hp : p.groups = []) :
    Covers os (readLists p.endRegion.regions.reverse) := by
  obtain ⟨base, before, current, rfl, hbase, hopened, hcurrent, -⟩ := h
  obtain ⟨regions, groups, siblings⟩ := p
  obtain rfl : groups = [] := hp
  cases hopened
  have hall := hbase.append hcurrent
  cases siblings with
  | nil => simpa [Progress.endRegion, readElements] using hall
  | cons u us =>
    rw [Progress.endRegion, List.reverse_cons, readLists_append, readLists_listOf]
    exact hall

lemma endRegion (h : Holds rest p os) (hp : p.groups = []) : Holds rest' p.endRegion os := by
  have hcovers := h.covers_endRegion hp
  obtain ⟨regions, groups, siblings⟩ := p
  obtain rfl : groups = [] := hp
  cases siblings with
  | nil => exact ⟨os, os, [], by simp, hcovers, .nil, .nil, by simp [Progress.endRegion]⟩
  | cons u us => exact ⟨os, os, [], by simp, hcovers, .nil, .nil, by simp [Progress.endRegion]⟩

lemma newline (h : Holds (t :: rest) p os) (ht : t.kind = .newline) :
    Holds rest (if p.groups.isEmpty then p.endRegion else p.touch t.place) os := by
  have hcloser : isCloser t.kind = false := by rw [ht]; rfl
  by_cases hgroups : p.groups = []
  · rw [if_pos (by simp [hgroups])]
    exact h.endRegion hgroups
  · rw [if_neg (by simpa using hgroups)]
    apply h.touch hcloser
    intro k
    exact directCommas_of_other (by rw [ht]; rfl) hcloser (by simp [ht]) k rest

end Holds

/-! ### One token -/

variable {s : Source} {p q : Progress} {os : List Occurrence} {previous : Option Token}

lemma represents_atom (registry : Registry) (siblings : List Tree) (ht : isAtom t.kind = true)
    (hfree : IsFree t ts) :
    Represents t ts (atom registry siblings t) ∧
      readElement (atom registry siblings t) = [atom registry siblings t] := by
  cases hkind : t.kind with
  | word =>
    by_cases hlead : (leads siblings && registry.isCallable t.name) = true
    · rw [show atom registry siblings t = .identifier t.place t.name by simp [atom, hkind, hlead]]
      exact ⟨.identifier hkind hfree, rfl⟩
    · rw [show atom registry siblings t = .literal t.place t.value by simp [atom, hkind, hlead]]
      exact ⟨.literal (by simp [constant?, hkind]) hfree, rfl⟩
  | symbol =>
    simp only [atom, hkind]
    exact ⟨.symbol hkind _, rfl⟩
  | «variable» =>
    simp only [atom, hkind]
    exact ⟨.variable hkind, rfl⟩
  | number | string | trueWord | falseWord | nullWord =>
    simp only [atom, hkind]
    exact ⟨.literal (by simp [constant?, hkind]) hfree, rfl⟩
  | _ => simp [hkind, isAtom] at ht

lemma Holds.place (h : Holds (t :: rest) p os) (hq : s.place p t = .ok q) (hfree : IsFree t rest)
    (halone : StandsAlone previous t) :
    Holds rest q (os ++ if bearsNode previous t then [(t, rest)] else []) := by
  rcases Source.place_cases hq with ⟨hkind, rfl⟩ | ⟨hkind, hq⟩ | ⟨hcloser, hq⟩ |
    ⟨closer, name, ho, rfl⟩ | ⟨hatom, rfl⟩
  · have hskip : bearsNode previous t = false := by simp [bearsNode, hkind]
    simpa only [hskip, Bool.false_eq_true, if_false, List.append_nil] using h.newline hkind
  · have hskip : bearsNode previous t = false := by simp [bearsNode, hkind]
    rw [if_neg (by simp [hskip]), List.append_nil]
    exact h.separate hkind hq
  · rw [if_neg (by simp [bearsNode_of_isCloser hcloser]), List.append_nil]
    exact h.close hcloser hq
  · rw [if_pos (bearsNode_of_opens ho halone.2)]
    refine h.openGroup (isCloser_eq_false_of_opens ho) (fun k => ?_)
      fun lists hlists => .group ho hlists
    rw [directCommas_of_opener (by simp [isOpener, ho]), Nat.add_comm]
  · obtain ⟨hnode, hread⟩ := represents_atom s.registry p.siblings hatom hfree
    rw [if_pos (bearsNode_of_isAtom hatom)]
    refine h.push (isCloser_eq_false_of_isAtom hatom)
      (fun k => directCommas_of_isAtom hatom k rest) ?_
    rw [hread]
    exact .cons hnode .nil

/-- A label is read with the colon behind it. -/
lemma Holds.label (h : Holds (t :: u :: rest) p os) (ht : canLabel t.kind = true)
    (hu : u.kind = .colon) :
    Holds rest (p.push (.label t.place t.value.plain)) (os ++ [(t, u :: rest)]) := by
  have hatom := isAtom_of_canLabel ht
  refine h.push (isCloser_eq_false_of_isAtom hatom) (fun k => ?_) (.cons (.label ht hu) .nil)
  rw [directCommas_of_isAtom hatom]
  apply directCommas_of_other <;> simp [hu, isOpener, isCloser, opens?]

/-- A function name is read with the parenthesis behind it. -/
lemma Holds.call (h : Holds (t :: u :: rest) p os) (ht : t.kind = .word)
    (hu : u.kind = .leftParen) :
    Holds rest (p.openGroup t t.name .rightParen) (os ++ [(t, u :: rest)]) := by
  refine h.openGroup (by simp [ht, isCloser]) (fun k => ?_) fun lists hlists => .call ht hu hlists
  rw [directCommas_of_isAtom (by rw [ht]; rfl),
    directCommas_of_opener (by simp [hu, isOpener, opens?]), Nat.add_comm]

/-! ### All tokens -/

lemma occurrences_end {last : Token} (hlast : last.kind = .eof) (previous : Option Token) :
    occurrences previous [last] = [] := by
  simp [occurrences, bearsNode, hlast]

/-- Of a mark of two tokens the first has a node. -/
lemma occurrences_cons_cons (ht : bearsNode previous t = true) (hu : bearsNode (some t) u = false) :
    occurrences previous (t :: u :: ts) = (t, u :: ts) :: occurrences (some u) ts := by
  simp [occurrences, ht, hu]

lemma eq_plain_of_plain {v : Value} {text : String} (h : Source.plain v = .ok text) :
    text = v.plain := by
  simp only [Source.plain, Value.plain?] at h
  split_ifs at h
  · cases h
  · exact (Except.ok.inj h).symm

/-- What a run leaves holds all tokens. -/
lemma Holds.marks {last : Token} (hlast : last.kind = .eof) (h : Holds (ts ++ [last]) p os)
    (hq : (marks ts).foldlM s.placeMark p = .ok q)
    (halone : ∀ t ∈ ts.head?, StandsAlone previous t) :
    Holds [last] q (os ++ occurrences previous (ts ++ [last])) := by
  fun_induction Grouping.marks ts generalizing p os previous with
  | case1 =>
    obtain rfl : p = q := Except.ok.inj hq
    rwa [List.nil_append, occurrences_end hlast, List.append_nil]
  | case2 t =>
    obtain ⟨p', hp', hq⟩ := bind_eq_ok_iff.mp hq
    obtain rfl : p' = q := Except.ok.inj hq
    rw [List.singleton_append, occurrences, occurrences_end hlast, List.append_nil]
    exact Holds.place h hp' (by simp [IsFree, hlast]) (halone t rfl)
  | case3 t u ts hmark ih =>
    obtain ⟨hcan, hcolon⟩ : canLabel t.kind = true ∧ u.kind = .colon := by simpa using hmark
    obtain ⟨p', hp', hq⟩ := bind_eq_ok_iff.mp hq
    obtain ⟨text, htext, hp'⟩ := bind_eq_ok_iff.mp hp'
    obtain rfl := Except.ok.inj hp'
    obtain rfl := eq_plain_of_plain htext
    have hbears : bearsNode previous t = true := bearsNode_of_isAtom (isAtom_of_canLabel hcan)
    have hskip : bearsNode (some t) u = false := by simp [bearsNode, hcolon]
    rw [List.cons_append, List.cons_append, occurrences_cons_cons hbears hskip, List.append_cons]
    apply ih (Holds.label h hcan hcolon) hq
    simp [StandsAlone, hcolon, canLabel]
  | case4 t u ts hmark hmark' ih =>
    obtain ⟨hword, hparen⟩ : t.kind = .word ∧ u.kind = .leftParen := by simpa using hmark'
    obtain ⟨p', hp', hq⟩ := bind_eq_ok_iff.mp hq
    obtain rfl := Except.ok.inj hp'
    have hbears : bearsNode previous t = true := by simp [bearsNode, hword]
    have hskip : bearsNode (some t) u = false := by simp [bearsNode, hparen, hword]
    rw [List.cons_append, List.cons_append, occurrences_cons_cons hbears hskip, List.append_cons]
    apply ih (Holds.call h hword hparen) hq
    simp [StandsAlone, hparen, canLabel]
  | case5 t u ts hmark hmark' ih =>
    obtain ⟨p', hp', hq⟩ := bind_eq_ok_iff.mp hq
    have hfree : IsFree t (u :: (ts ++ [last])) := by
      intro v hv
      obtain rfl : u = v := by simpa using hv
      exact ⟨by simpa using hmark, by simpa using hmark'⟩
    have hheld := Holds.place h hp' hfree (halone t rfl)
    rw [List.cons_append, occurrences, ← List.append_assoc]
    apply ih hheld hq
    intro v hv
    obtain rfl : u = v := by simpa using hv
    exact standsAlone_of_not_mark hmark hmark'

/-- The regions have one node for each token that stands for something, in the order of the tokens
and made of what the token carries, and no other node; a group has as many argument lists as its
tokens say. -/
theorem regions_read_tokens (s : Source) {ts : List Token} {last : Token}
    (hlast : last.kind = .eof) (heof : ∀ t ∈ ts, t.kind ≠ .eof) {regions : List Tree}
    (h : s.regions (ts ++ [last]) = .ok regions) :
    List.Forall₂ (fun o node => Represents o.1 o.2 node) (occurrences none (ts ++ [last]))
      (readLists regions) := by
  rw [Source.regions_append_end heof hlast] at h
  obtain ⟨q, hq, hfinish⟩ := bind_eq_ok_iff.mp h
  have hheld : Holds [last] q ([] ++ occurrences none (ts ++ [last])) :=
    Holds.marks hlast (Holds.start (ts ++ [last])) hq fun t _ => by simp [StandsAlone]
  rw [List.nil_append] at hheld
  rw [Source.finish] at hfinish
  split at hfinish
  · next hgroups =>
    obtain rfl := Except.ok.inj hfinish
    exact hheld.covers_endRegion hgroups
  · cases hfinish

/-- The nodes of `f ( @a , [ ] )` are those of the name, the variable and the bracket. -/
theorem regions_read_call :
    let token (kind : TokenKind) (text : String) (column : Int) : Token :=
      ⟨kind, .text text, ⟨"f.ms", 1, column⟩⟩
    let f := token .word "f" 1
    let a := token .variable "a" 3
    let bracket := token .leftBracket "[" 6
    let behind := [token .comma "," 5, bracket, token .rightBracket "]" 7,
      token .rightParen ")" 8, token .eof "" 9]
    let group : Tree := .call bracket.place Tree.bracketName []
    let call : Tree := .call f.place "f" [.call a.place Tree.listName [.variable a.place "a"],
      .call bracket.place Tree.listName [group]]
    (Source.mk [] .empty).regions (f :: token .leftParen "(" 2 :: a :: behind) =
        .ok [.call f.place Tree.listName [call]] ∧
      List.Forall₂ (fun o node => Represents o.1 o.2 node)
        [(f, token .leftParen "(" 2 :: a :: behind), (a, behind), (bracket, behind.drop 2)]
        [call, .variable a.place "a", group] := by
  intro token f a bracket behind group call
  have hregions : (Source.mk [] .empty).regions (f :: token .leftParen "(" 2 :: a :: behind) =
      .ok [.call f.place Tree.listName [call]] := rfl
  constructor
  · exact hregions
  · have hlast : (token .eof "" 9).kind = .eof := rfl
    have heof : ∀ t ∈ f :: token .leftParen "(" 2 :: a :: behind.take 4, t.kind ≠ .eof := by decide
    exact regions_read_tokens ⟨[], .empty⟩ hlast heof hregions

end Grouping

end LineScript
