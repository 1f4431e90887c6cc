import LineScript.Proofs.Grouping.Nesting
import LineScript.Proofs.Grouping.Run

/-!
# What is grouped and what is blamed

A run over marks keeps the groups open that the scan keeps open, and it is refused by the token
that the scan is refused by. So the accepted lists are grouped, and the place of a failure is that
of the first token that no list can go on from, or of the innermost group left open.
-/

namespace LineScript

namespace Grouping

open Traced

variable {s : Source} {p p' q : Progress} {m : Mark} {ms : List Mark} {t : Token} {ts : List Token}
  {previous : Option Token}

/-! ### One token -/

/-- The open groups of a run, as the scan knows them. -/
def Progress.openings (p : Progress) : Openings :=
  p.groups.map fun g => (g.opener, g.closer)

@[simp] lemma openings_touch (p : Progress) (place : Location) :
    (p.touch place).openings = p.openings := by
  obtain ⟨regions, groups, siblings⟩ := p
  cases groups <;> rfl

lemma openings_push (p : Progress) (t : Tree) : (p.push t).openings = p.openings :=
  openings_touch p t.place

lemma openings_openGroup (p : Progress) (t : Token) (name : String) (closer : TokenKind) :
    (p.openGroup t name closer).openings = (t, closer) :: p.openings :=
  congrArg ((t, closer) :: ·) (openings_touch p t.place)

lemma openings_endRegion (p : Progress) : p.endRegion.openings = p.openings := by
  obtain ⟨regions, groups, siblings⟩ := p
  cases siblings <;> rfl

lemma openings_eq_nil_iff : p.openings = [] ↔ p.groups = [] := by
  simp [Progress.openings]

lemma openedBy_eq_self (h : t.kind = .leftParen → previous.any (·.kind = .word) = false) :
    openedBy previous t = t := by
  unfold openedBy
  split
  · next name =>
    rw [if_neg]
    rintro ⟨hname, ht⟩
    simpa [hname] using h ht
  · rfl

/-- The token does not belong to the one before it. -/
def StandsAlone (previous : Option Token) (t : Token) : Prop :=
  (t.kind = .colon → previous.any (canLabel ·.kind) = false) ∧
    (t.kind = .leftParen → previous.any (·.kind = .word) = false)

/-- What becomes of a token is what the scan says of the groups that are open behind it. -/
def AgreesAt (s : Source) (t : Token) (r : Except Failure Progress) : Option Openings → Prop
  | none => r = s.complain (.unexpectedToken t.value.plain) t.place
  | some stack => ∃ q, r = .ok q ∧ q.openings = stack

lemma agreesAt_orUnexpected (hsmall : t.value.isTooLarge = false) (r : Option Progress) :
    AgreesAt s t (s.orUnexpected t r) (r.map Progress.openings) := by
  cases r with
  | none => exact Source.unexpected_eq hsmall
  | some q => exact ⟨q, rfl, rfl⟩

lemma openings_separate? (h : t.kind = .comma) :
    (p.separate? t).map Progress.openings = advance? p.openings previous t := by
  obtain ⟨regions, groups, siblings⟩ := p
  cases groups with
  | nil => simp [Progress.separate?, Progress.openings, advance?, h, opens?, isCloser]
  | cons g gs => simp [Progress.separate?, Progress.openings, advance?, h, opens?, isCloser]

lemma openings_close? (h : isCloser t.kind = true) :
    (p.close? t).map Progress.openings = advance? p.openings previous t := by
  have hopens := isOpener_eq_false_iff.mp (isOpener_eq_false_of_isCloser h)
  obtain ⟨regions, groups, siblings⟩ := p
  cases groups with
  | nil => simp [Progress.close?, Progress.openings, advance?, hopens, h]
  | cons g gs =>
    by_cases hg : g.closer = t.kind
    · simp [Progress.close?, Progress.openings, advance?, hopens, h, hg]
    · simp [Progress.close?, Progress.openings, advance?, hopens, h, hg]

/-- The name of a label, or the token that may be refused, can be written. -/
def Mark.IsWritable : Mark → Prop
  | .label t => t.value.isTooLarge = false
  | .call _ => True
  | .single t => isAtom t.kind = true ∨ t.value.isTooLarge = false

lemma isWritable_of_mem_marks (hsmall : ∀ t ∈ ts, t.value.isTooLarge = false) :
    ∀ m ∈ marks ts, m.IsWritable := by
  fun_induction marks ts with
  | case1 => simp
  | case2 t => simpa [Mark.IsWritable] using Or.inr hsmall
  | case3 t u ts h ih =>
    obtain ⟨ht, -, hts⟩ : t.value.isTooLarge = false ∧ _ ∧ _ := by simpa using hsmall
    exact List.forall_mem_cons.mpr ⟨ht, ih hts⟩
  | case4 t u ts h h' ih =>
    obtain ⟨-, -, hts⟩ : t.value.isTooLarge = false ∧ _ ∧ _ := by simpa using hsmall
    exact List.forall_mem_cons.mpr ⟨trivial, ih hts⟩
  | case5 t u ts h h' ih =>
    obtain ⟨ht, hts⟩ := List.forall_mem_cons.mp hsmall
    exact List.forall_mem_cons.mpr ⟨Or.inr ht, ih hts⟩

/-- A run treats a token that stands alone like the scan does. -/
lemma agreesAt_place (halone : StandsAlone previous t) (heof : t.kind ≠ .eof)
    (hwritable : (Mark.single t).IsWritable) :
    AgreesAt s t (s.place p t) (advance? p.openings previous t) := by
  have hsmall : isAtom t.kind = false → t.value.isTooLarge = false := fun hatom =>
    hwritable.resolve_left (by simp [hatom])
  rcases kind_cases t.kind with hkind | hkind | hkind | hkind | hkind | ⟨closer, name, hkind⟩ |
    hkind
  · rw [Source.place_of_newline hkind, advance?_of_other (by rw [hkind]; rfl) (by rw [hkind]; rfl)
      (by simp [hkind]) (by simp [hkind])]
    refine ⟨_, rfl, ?_⟩
    split
    · exact openings_endRegion p
    · exact openings_touch p t.place
  · rw [Source.place_of_comma hkind, ← openings_separate? hkind]
    exact agreesAt_orUnexpected (hsmall (by rw [hkind]; rfl)) _
  · have hrefused : advance? p.openings previous t = none := by
      simp [advance?, hkind, opens?, isCloser, halone.1 hkind]
    rw [Source.place_of_refused (Or.inl hkind), hrefused]
    exact Source.unexpected_eq (hsmall (by rw [hkind]; rfl))
  · exact absurd hkind heof
  · rw [Source.place_of_isCloser hkind, ← openings_close? hkind]
    exact agreesAt_orUnexpected (hsmall (isAtom_eq_false_of_isCloser hkind)) _
  · rw [Source.place_of_opens hkind, advance?_of_opens hkind, openedBy_eq_self halone.2]
    exact ⟨_, rfl, openings_openGroup p t name closer⟩
  · rw [Source.place_of_isAtom hkind, advance?_of_isAtom hkind]
    exact ⟨_, rfl, openings_push p _⟩

/-! ### Which progress is possible -/

/-- Whether a mark can be put in its place depends on the open groups alone, and so do the groups
that are open then. -/
lemma exists_placeMark (h : p'.openings = p.openings) (hq : s.placeMark p m = .ok q) :
    ∃ q', s.placeMark p' m = .ok q' ∧ q'.openings = q.openings := by
  cases m with
  | label t =>
    obtain ⟨text, htext, hq⟩ := bind_eq_ok_iff.mp hq
    obtain rfl := Except.ok.inj hq
    refine ⟨p'.push (.label t.place text), bind_eq_ok_iff.mpr ⟨text, htext, rfl⟩, ?_⟩
    rw [openings_push, openings_push, h]
  | call t =>
    obtain rfl := Except.ok.inj hq
    refine ⟨_, rfl, ?_⟩
    rw [openings_openGroup, openings_openGroup, h]
  | single t =>
    rcases Source.place_cases hq with ⟨hkind, rfl⟩ | ⟨hkind, hq⟩ | ⟨hkind, hq⟩ |
      ⟨closer, name, hkind, rfl⟩ | ⟨hkind, rfl⟩
    · refine ⟨_, Source.place_of_newline hkind, ?_⟩
      split_ifs <;> simp [openings_endRegion, h]
    · have hmap : (p.separate? t).map _ = advance? p.openings none t := openings_separate? hkind
      rw [hq, ← h, ← openings_separate? hkind] at hmap
      obtain ⟨q', hq', hopenings⟩ := Option.map_eq_some_iff.mp hmap.symm
      exact ⟨q', Source.place_eq_ok_iff.mpr (Or.inr (Or.inl ⟨hkind, hq'⟩)), hopenings⟩
    · have hmap : (p.close? t).map _ = advance? p.openings none t := openings_close? hkind
      rw [hq, ← h, ← openings_close? hkind] at hmap
      obtain ⟨q', hq', hopenings⟩ := Option.map_eq_some_iff.mp hmap.symm
      exact ⟨q', Source.place_eq_ok_iff.mpr (Or.inr (Or.inr (Or.inl ⟨hkind, hq'⟩))), hopenings⟩
    · refine ⟨_, Source.place_of_opens hkind, ?_⟩
      rw [openings_openGroup, openings_openGroup, h]
    · refine ⟨_, Source.place_of_isAtom hkind, ?_⟩
      rw [openings_push, openings_push, h]

lemma exists_foldlM_placeMark (h : p'.openings = p.openings)
    (hq : ms.foldlM s.placeMark p = .ok q) :
    ∃ q', ms.foldlM s.placeMark p' = .ok q' ∧ q'.openings = q.openings := by
  induction ms generalizing p p' with
  | nil =>
    obtain rfl := Except.ok.inj hq
    exact ⟨p', rfl, h⟩
  | cons m ms ih =>
    obtain ⟨r, hr, hq⟩ := bind_eq_ok_iff.mp hq
    obtain ⟨r', hr', hopenings⟩ := exists_placeMark h hr
    obtain ⟨q', hq', hopenings'⟩ := ih hopenings hq
    exact ⟨q', bind_eq_ok_iff.mpr ⟨r', hr', hq'⟩, hopenings'⟩

/-! ### All marks -/

/-- A token that makes no mark with the one before it stands alone. -/
lemma standsAlone_of_not_mark {u : Token} (hlabel : ¬(canLabel t.kind && u.kind = .colon) = true)
    (hcall : ¬(t.kind = .word && u.kind = .leftParen) = true) : StandsAlone (some t) u := by
  constructor
  · intro hcolon
    simpa [hcolon] using hlabel
  · intro hparen
    simpa [hparen] using hcall


/-- A run ends as a scan does. -/
def Agrees (s : Source) (p : Progress) (ms : List Mark) : Except Token Openings → Prop
  | .error t => ms.foldlM s.placeMark p = s.complain (.unexpectedToken t.value.plain) t.place
  | .ok stack => ∃ q, ms.foldlM s.placeMark p = .ok q ∧ q.openings = stack

lemma Agrees.cons {m : Mark} {ms : List Mark} {r : Except Token Openings}
    (hm : s.placeMark p m = .ok q) (h : Agrees s q ms r) : Agrees s p (m :: ms) r := by
  cases r with
  | error t =>
    rw [Agrees, List.foldlM_cons, hm, ok_bind]
    exact h
  | ok stack =>
    rw [Agrees, List.foldlM_cons, hm, ok_bind]
    exact h

/-- A token with a mark of its own is treated by the run as by the scan. -/
lemma Agrees.single {ms : List Mark} (halone : StandsAlone previous t) (heof : t.kind ≠ .eof)
    (hwritable : (Mark.single t).IsWritable)
    (h : ∀ q : Progress, Agrees s q ms (scan q.openings (some t) ts)) :
    Agrees s p (.single t :: ms) (scan p.openings previous (t :: ts)) := by
  have hplace : AgreesAt s t (s.place p t) (advance? p.openings previous t) :=
    agreesAt_place halone heof hwritable
  rw [scan]
  cases hadvance : advance? p.openings previous t with
  | none =>
    rw [hadvance] at hplace
    rw [Agrees, List.foldlM_cons]
    exact congrArg (· >>= _) hplace
  | some stack =>
    rw [hadvance] at hplace
    obtain ⟨q, hq, rfl⟩ := hplace
    exact Agrees.cons hq (h q)

/-- The run over the marks of a list agrees with the scan of the list. -/
lemma agrees_marks (heof : ∀ t ∈ ts, t.kind ≠ .eof) (hwritable : ∀ m ∈ marks ts, m.IsWritable)
    (halone : ∀ t ∈ ts.head?, StandsAlone previous t) :
    Agrees s p (marks ts) (scan p.openings previous ts) := by
  fun_induction marks ts generalizing p previous with
  | case1 => exact ⟨p, rfl, rfl⟩
  | case2 t =>
    apply Agrees.single (halone t rfl) (heof t (by simp)) (hwritable _ (by simp))
    exact fun q => ⟨q, rfl, rfl⟩
  | case3 t u ts h ih =>
    obtain ⟨hcan, hcolon⟩ : canLabel t.kind = true ∧ u.kind = .colon := by simpa using h
    obtain ⟨hsmall, hwritable⟩ := List.forall_mem_cons.mp hwritable
    have hu : advance? p.openings (some t) u = some p.openings := by
      refine advance?_of_other ?_ ?_ ?_ ?_ <;> simp [hcolon, isOpener, isCloser, opens?, hcan]
    have hsmall : t.value.isTooLarge = false := hsmall
    have hlabel : s.placeMark p (.label t) = .ok (p.push (.label t.place t.value.plain)) := by
      simp only [Source.placeMark, Source.plain, Value.plain?, hsmall, Bool.false_eq_true,
        if_false]
      rfl
    rw [scan, advance?_of_isAtom (isAtom_of_canLabel hcan)]
    dsimp only
    rw [scan, hu]
    apply Agrees.cons hlabel
    rw [← openings_push p (.label t.place t.value.plain)]
    exact ih (fun v hv => heof v (by simp [hv])) hwritable
      fun v _ => by simp [StandsAlone, hcolon, canLabel]
  | case4 t u ts h h' ih =>
    obtain ⟨hword, hparen⟩ : t.kind = .word ∧ u.kind = .leftParen := by simpa using h'
    obtain ⟨-, hwritable⟩ := List.forall_mem_cons.mp hwritable
    have hu : advance? p.openings (some t) u = some ((t, .rightParen) :: p.openings) := by
      simp [advance?, hparen, opens?, openedBy, hword]
    rw [scan, advance?_of_isAtom (by rw [hword]; rfl)]
    dsimp only
    rw [scan, hu]
    rw [← openings_openGroup p t t.name .rightParen]
    refine Agrees.cons rfl (ih ?_ hwritable ?_)
    · exact fun v hv => heof v (by simp [hv])
    · exact fun v _ => by simp [StandsAlone, hparen, canLabel]
  | case5 t u ts h h' ih =>
    obtain ⟨ht, hwritable⟩ := List.forall_mem_cons.mp hwritable
    apply Agrees.single (halone t rfl) (heof t (by simp)) ht
    intro q
    apply ih (fun v hv => heof v (by simp [hv])) hwritable
    intro v hv
    obtain rfl : u = v := by simpa using hv
    exact standsAlone_of_not_mark h h'

/-! ### Success and blame -/

/-- Regions are found where a scan ends with no group left open. Otherwise the token that it
refuses is blamed, or the innermost group left open. -/
def AgreesAtEnd (s : Source) (r : Except Failure (List Tree)) : Except Token Openings → Prop
  | .ok [] => ∃ regions, r = .ok regions
  | .ok ((o, closer) :: _) => r = s.complain (.unterminatedGroup (closerText closer)) o.place
  | .error t => r = s.complain (.unexpectedToken t.value.plain) t.place

lemma agreesAtEnd_of_isWritable {last : Token} (hlast : last.kind = .eof)
    (heof : ∀ t ∈ ts, t.kind ≠ .eof) (hwritable : ∀ m ∈ marks ts, m.IsWritable) :
    AgreesAtEnd s (s.regions (ts ++ [last])) (scan [] none ts) := by
  have hagrees : Agrees s .start (marks ts) (scan [] none ts) :=
    agrees_marks (p := .start) heof hwritable fun t _ => by simp [StandsAlone]
  rw [Source.regions_append_end heof hlast]
  cases hscan : scan [] none ts with
  | error t =>
    rw [hscan] at hagrees
    exact congrArg (· >>= s.finish) hagrees
  | ok stack =>
    rw [hscan] at hagrees
    obtain ⟨q, hq, hstack⟩ := hagrees
    rw [hq, ok_bind]
    cases stack with
    | nil =>
      rw [Source.finish, openings_eq_nil_iff.mp hstack]
      exact ⟨_, rfl⟩
    | cons x stack =>
      obtain ⟨o, closer⟩ := x
      obtain ⟨g, gs, hgroups, hg, -⟩ := List.map_eq_cons_iff.mp hstack
      obtain ⟨rfl, rfl⟩ := Prod.mk.inj hg
      rw [Source.finish, hgroups]
      rfl

lemma regions_eq_scan {last : Token} (hlast : last.kind = .eof) (heof : ∀ t ∈ ts, t.kind ≠ .eof)
    (hsmall : ∀ t ∈ ts, t.value.isTooLarge = false) :
    AgreesAtEnd s (s.regions (ts ++ [last])) (scan [] none ts) :=
  agreesAtEnd_of_isWritable hlast heof (isWritable_of_mem_marks hsmall)

lemma exists_opener_of_unclosed {stack : Openings} {o : Token} {closer : TokenKind}
    (h : Unclosed ((o, closer) :: stack) ts) :
    ∃ pre t name post, ts = pre ++ t :: post ∧ opens? t.kind = some (closer, name) ∧
      Nested post ∧ openedBy pre.getLast? t = o := by
  cases h with
  | opened ho h hrest => exact ⟨_, _, _, _, rfl, ho, hrest, rfl⟩

/-- The lists that are grouped are the accepted ones. Any other list fails at the first token up to
which no accepted list begins like it or, if there is none, at the last opening token that is not
closed, where a call stands for its parenthesis. -/
theorem regions_accepts_and_blames (s : Source) {ts : List Token} {last : Token}
    (hlast : last.kind = .eof) (heof : ∀ t ∈ ts, t.kind ≠ .eof)
    (hsmall : ∀ t ∈ ts, t.value.isTooLarge = false) :
    ((∃ regions, s.regions (ts ++ [last]) = .ok regions) ↔ Accepted ts) ∧
    (¬Accepted ts →
      (∃ pre t post, ts = pre ++ t :: post ∧ Viable pre ∧ ¬Viable (pre ++ [t]) ∧
        s.regions (ts ++ [last]) = s.complain (.unexpectedToken t.value.plain) t.place) ∨
      (Viable ts ∧ ∃ pre o closer name post, ts = pre ++ o :: post ∧
        opens? o.kind = some (closer, name) ∧ Nested post ∧
        s.regions (ts ++ [last]) = s.complain (.unterminatedGroup (closerText closer))
          (openedBy pre.getLast? o).place)) := by
  have hregions := regions_eq_scan (s := s) hlast heof hsmall
  rw [← scan_eq_nil_iff]
  cases hscan : scan [] none ts with
  | error t =>
    rw [hscan] at hregions
    obtain ⟨pre, post, hts, hviable, hrefused⟩ := exists_refused hscan
    refine ⟨⟨?_, ?_⟩, ?_⟩
    · rintro ⟨regions, heq⟩
      cases hregions.symm.trans heq
    · intro h
      cases h
    · intro _
      exact Or.inl ⟨pre, t, post, hts, hviable, hrefused, hregions⟩
  | ok stack =>
    cases stack with
    | nil =>
      rw [hscan] at hregions
      exact ⟨⟨fun _ => rfl, fun _ => hregions⟩, fun h => absurd rfl h⟩
    | cons x stack =>
      obtain ⟨o, closer⟩ := x
      rw [hscan] at hregions
      obtain ⟨pre, t, name, post, hts, ho, hpost, rfl⟩ :=
        exists_opener_of_unclosed (Unclosed.of_scan hscan)
      refine ⟨⟨?_, ?_⟩, ?_⟩
      · rintro ⟨regions, heq⟩
        cases hregions.symm.trans heq
      · intro h
        cases h
      · intro _
        have hviable : Viable ts := viable_iff.mpr ⟨_, hscan⟩
        exact Or.inr ⟨hviable, pre, t, closer, name, post, hts, ho, hpost, hregions⟩

/-- The list `f ( @a , [ @b ]` can go on, but its call is left open. -/
theorem regions_open_call :
    let token (kind : TokenKind) (text : String) (column : Int) : Token :=
      ⟨kind, .text text, ⟨"f.ms", 1, column⟩⟩
    let ts := [token .word "f" 1, token .leftParen "(" 2, token .variable "a" 3,
      token .comma "," 5, token .leftBracket "[" 6, token .variable "b" 7,
      token .rightBracket "]" 9]
    let source : Source := ⟨[], .empty⟩
    source.regions (ts ++ [token .eof "" 10]) =
      source.complain (.unterminatedGroup ")") ⟨"f.ms", 1, 1⟩ ∧ ¬Accepted ts := by
  intro token ts source
  have hregions : source.regions (ts ++ [token .eof "" 10]) =
      source.complain (.unterminatedGroup ")") ⟨"f.ms", 1, 1⟩ := rfl
  refine ⟨hregions, ?_⟩
  intro haccepted
  have hlast : (token .eof "" 10).kind = .eof := rfl
  obtain ⟨regions, heq⟩ :=
    (regions_accepts_and_blames source hlast (by decide) (by decide)).1.mpr haccepted
  cases hregions.symm.trans heq

end Grouping

end LineScript
