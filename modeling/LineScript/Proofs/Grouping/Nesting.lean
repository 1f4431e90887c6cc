import LineScript.Proofs.Grouping.Place

/-!
# Nested groups

Which lists of tokens can be grouped at all: groups are nested by kind, no comma stands outside of
all groups, and no colon stands without something before it that it makes a label. `scan` decides
this from left to right with a stack of the closing tokens that are due. A list that it passes can
always be continued to one that is accepted, and no list can be after a token that it refuses.
-/

namespace LineScript

namespace Grouping

open Traced

/-! ### Accepted lists -/

/-- Every group is closed by a token of its kind. -/
inductive Nested : List Token → Prop where
  | nil : Nested []
  | other {t : Token} {ts : List Token} (hopener : isOpener t.kind = false)
      (hcloser : isCloser t.kind = false) (h : Nested ts) : Nested (t :: ts)
  | group {o c : Token} {name : String} {ts us : List Token}
      (ho : opens? o.kind = some (c.kind, name)) (h : Nested ts) (hrest : Nested us) :
      Nested (o :: (ts ++ c :: us))

/-- What can be grouped: every comma has an open group around it, and every colon has a word, a
string or a number directly before it. -/
structure Accepted (ts : List Token) : Prop where
  nested : Nested ts
  commas : ∀ pre t post, ts = pre ++ t :: post → t.kind = .comma →
    pre.countP (isCloser ·.kind) < pre.countP (isOpener ·.kind)
  colons : ∀ pre t post, ts = pre ++ t :: post → t.kind = .colon →
    ∃ u ∈ pre.getLast?, canLabel u.kind = true

/-- The list begins some list that is accepted. -/
def Viable (ts : List Token) : Prop :=
  ∃ us, (∀ u ∈ us, u.kind ≠ .eof) ∧ Accepted (ts ++ us)

/-- The token that a group is known by: the function name of a call, else the opening token. -/
def openedBy (previous : Option Token) (t : Token) : Token :=
  match previous with
  | some name => if name.kind = .word ∧ t.kind = .leftParen then name else t
  | none => t

/-! ### The scan -/

/-- The tokens that open groups are known by, the innermost first, with those that close them. -/
abbrev Openings := List (Token × TokenKind)

/-- The open groups behind a token, unless it must not stand there. -/
def advance? (stack : Openings) (previous : Option Token) (t : Token) : Option Openings :=
  match opens? t.kind with
  | some (closer, _) => some ((openedBy previous t, closer) :: stack)
  | none =>
    if isCloser t.kind then
      match stack with
      | (_, closer) :: stack => if closer = t.kind then some stack else none
      | [] => none
    else if t.kind = .comma && stack.isEmpty then none
    else if t.kind = .colon && !previous.any (canLabel ·.kind) then none
    else some stack

/-- The open groups behind a list of tokens, or the first token that must not stand where it is. -/
def scan (stack : Openings) (previous : Option Token) : List Token → Except Token Openings
  | [] => .ok stack
  | t :: ts =>
    match advance? stack previous t with
    | some stack => scan stack (some t) ts
    | none => .error t

variable {stack stack' : Openings} {previous : Option Token} {t : Token} {ts us : List Token}

lemma advance?_of_opens {closer : TokenKind} {name : String}
    (h : opens? t.kind = some (closer, name)) :
    advance? stack previous t = some ((openedBy previous t, closer) :: stack) := by
  simp [advance?, h]

lemma advance?_of_closer (h : isCloser t.kind = true) (o : Token) :
    advance? ((o, t.kind) :: stack) previous t = some stack := by
  have hopens := isOpener_eq_false_iff.mp (isOpener_eq_false_of_isCloser h)
  simp [advance?, hopens, h]

lemma advance?_of_other (hopener : isOpener t.kind = false) (hcloser : isCloser t.kind = false)
    (hcomma : t.kind = .comma → stack ≠ [])
    (hcolon : t.kind = .colon → previous.any (canLabel ·.kind) = true) :
    advance? stack previous t = some stack := by
  simp only [advance?, isOpener_eq_false_iff.mp hopener, hcloser, Bool.false_eq_true, if_false]
  rw [if_neg, if_neg]
  · simpa using hcolon
  · simpa using hcomma

lemma advance?_of_isAtom (h : isAtom t.kind = true) :
    advance? stack previous t = some stack := by
  obtain ⟨hcomma, hcolon⟩ := ne_of_isAtom h
  exact advance?_of_other (isOpener_eq_false_of_isAtom h) (isCloser_eq_false_of_isAtom h)
    (fun h => absurd h hcomma) (fun h => absurd h hcolon)

/-- All that a token can do to the open groups. -/
lemma advance?_cases (h : advance? stack previous t = some stack') :
    (∃ closer name, opens? t.kind = some (closer, name) ∧
      stack' = (openedBy previous t, closer) :: stack) ∨
    (isCloser t.kind = true ∧ ∃ o, stack = (o, t.kind) :: stack') ∨
    (isOpener t.kind = false ∧ isCloser t.kind = false ∧ stack' = stack ∧
      (t.kind = .comma → stack ≠ []) ∧
      (t.kind = .colon → previous.any (canLabel ·.kind) = true)) := by
  unfold advance? at h
  split at h
  · next closer name hopens => exact Or.inl ⟨closer, name, hopens, (Option.some.inj h).symm⟩
  · next hopens =>
    split_ifs at h with hcloser hcomma hcolon
    · split at h
      · next o closer rest =>
        split_ifs at h with heq
        obtain rfl := Option.some.inj h
        exact Or.inr (Or.inl ⟨hcloser, o, by rw [heq]⟩)
      · cases h
    · refine Or.inr (Or.inr ⟨isOpener_eq_false_iff.mpr hopens, by simpa using hcloser,
        (Option.some.inj h).symm, ?_, ?_⟩)
      · simpa using hcomma
      · simpa using hcolon

lemma scan_append : scan stack previous (ts ++ us) =
    scan stack previous ts >>= fun stack => scan stack (ts.getLast?.or previous) us := by
  induction ts generalizing stack previous with
  | nil => rfl
  | cons t ts ih =>
    simp only [List.cons_append, scan]
    cases advance? stack previous t with
    | none => rfl
    | some stack =>
      simp only [ih, List.getLast?_cons]
      cases ts.getLast? <;> rfl

/-- A scan that fails does so at the first token that is refused. -/
lemma scan_eq_error (h : scan stack previous ts = .error t) :
    ∃ pre post stack', ts = pre ++ t :: post ∧ scan stack previous pre = .ok stack' ∧
      advance? stack' (pre.getLast?.or previous) t = none := by
  induction ts generalizing stack previous with
  | nil => cases h
  | cons u ts ih =>
    rw [scan] at h
    cases hadvance : advance? stack previous u with
    | none =>
      rw [hadvance] at h
      obtain rfl : u = t := Except.error.inj h
      exact ⟨[], ts, stack, rfl, rfl, hadvance⟩
    | some next =>
      rw [hadvance] at h
      obtain ⟨pre, post, stack', rfl, hscan, hnone⟩ := ih h
      refine ⟨u :: pre, post, stack', rfl, ?_, ?_⟩
      · rw [scan, hadvance]
        exact hscan
      · rw [List.getLast?_cons]
        cases hlast : pre.getLast? <;> simpa [hlast] using hnone

/-! ### What the stack says about the tokens -/

lemma Nested.append (hts : Nested ts) (hus : Nested us) : Nested (ts ++ us) := by
  induction hts with
  | nil => exact hus
  | other hopener hcloser h ih => exact .other hopener hcloser ih
  | group ho h hrest ihh ih =>
    rw [List.cons_append, List.append_assoc, List.cons_append]
    exact .group ho h ih

lemma Nested.countP_eq (h : Nested ts) :
    ts.countP (isOpener ·.kind) = ts.countP (isCloser ·.kind) := by
  induction h with
  | nil => rfl
  | other hopener hcloser h ih => simp [hopener, hcloser, ih]
  | @group o c name ts us ho h hrest ihh ih =>
    have hc := isCloser_of_opens ho
    have hc' := isOpener_eq_false_of_isCloser hc
    have ho' : isOpener o.kind = true := by simp [isOpener, ho]
    have ho'' := isCloser_eq_false_of_opens ho
    simp only [List.countP_cons, List.countP_append, hc, hc', ho', ho'', ihh, ih]
    simp
    omega

/-- The tokens have left the groups of the stack open, and all others are nested. -/
inductive Unclosed : Openings → List Token → Prop where
  | nested {ts : List Token} (h : Nested ts) : Unclosed [] ts
  | opened {stack : Openings} {o : Token} {closer : TokenKind} {name : String} {ts us : List Token}
      (ho : opens? o.kind = some (closer, name)) (h : Unclosed stack ts) (hrest : Nested us) :
      Unclosed ((openedBy ts.getLast? o, closer) :: stack) (ts ++ o :: us)

lemma Unclosed.append (h : Unclosed stack ts) (hus : Nested us) : Unclosed stack (ts ++ us) := by
  cases h with
  | nested h => exact .nested (h.append hus)
  | opened ho h hrest =>
    rw [List.append_assoc, List.cons_append]
    exact .opened ho h (hrest.append hus)

lemma Unclosed.advance (h : Unclosed stack ts) (ht : advance? stack ts.getLast? t = some stack') :
    Unclosed stack' (ts ++ [t]) := by
  rcases advance?_cases ht with ⟨closer, name, ho, rfl⟩ | ⟨-, o, rfl⟩ | ⟨hopener, hcloser, rfl, -⟩
  · exact .opened ho h .nil
  · cases h with
    | opened ho h hrest =>
      rw [List.append_assoc, List.cons_append]
      exact h.append (.group ho hrest .nil)
  · exact h.append (.other hopener hcloser .nil)

lemma Unclosed.scan (h : Unclosed stack ts) (hscan : scan stack ts.getLast? us = .ok stack') :
    Unclosed stack' (ts ++ us) := by
  induction us generalizing stack ts with
  | nil =>
    obtain rfl : stack = stack' := Except.ok.inj hscan
    simpa using h
  | cons t us ih =>
    rw [Grouping.scan] at hscan
    cases hadvance : advance? stack ts.getLast? t with
    | none =>
      rw [hadvance] at hscan
      cases hscan
    | some next =>
      rw [hadvance] at hscan
      rw [List.append_cons]
      apply ih (h.advance hadvance)
      rwa [List.getLast?_concat]

lemma Unclosed.of_scan (h : Grouping.scan [] none ts = .ok stack) : Unclosed stack ts :=
  Unclosed.scan (.nested .nil) h

lemma Unclosed.countP_eq (h : Unclosed stack ts) :
    ts.countP (isOpener ·.kind) = ts.countP (isCloser ·.kind) + stack.length := by
  induction h with
  | nested h => simpa using h.countP_eq
  | @opened stack o closer name ts us ho h hrest ih =>
    have ho' : isOpener o.kind = true := by simp [isOpener, ho]
    have ho'' := isCloser_eq_false_of_opens ho
    simp only [List.countP_cons, List.countP_append, ho', ho'', ih, hrest.countP_eq]
    simp
    omega

/-! ### Acceptance by scanning -/

/-- The commas and colons of a list stand where they may, if groups may be open before it and a
token may be directly before it. -/
structure Fits (isOpen : Bool) (previous : Option Token) (ts : List Token) : Prop where
  commas : ∀ pre t post, ts = pre ++ t :: post → t.kind = .comma → isOpen = false →
    pre.countP (isCloser ·.kind) < pre.countP (isOpener ·.kind)
  colons : ∀ pre t post, ts = pre ++ t :: post → t.kind = .colon →
    (pre.getLast?.or previous).any (canLabel ·.kind) = true

lemma Accepted.fits (h : Accepted ts) : Fits false none ts := by
  refine ⟨fun pre t post hts ht _ => h.commas pre t post hts ht, ?_⟩
  intro pre t post hts ht
  obtain ⟨u, hu, hcan⟩ := h.colons pre t post hts ht
  rw [Option.mem_def.mp hu]
  exact hcan

lemma getLast?_append_or (ts us : List Token) (previous : Option Token) :
    (ts ++ us).getLast?.or previous = us.getLast?.or (ts.getLast?.or previous) := by
  rw [List.getLast?_append, Option.or_assoc]

/-- What stands behind nested tokens sees as many open groups as they do. -/
lemma Fits.of_append {b : Bool} (h : Fits b previous (ts ++ us))
    (hts : ts.countP (isOpener ·.kind) = ts.countP (isCloser ·.kind)) :
    Fits b (ts.getLast?.or previous) us := by
  constructor
  · rintro pre t post rfl ht hb
    have hlt := h.commas (ts ++ pre) t post (by simp) ht hb
    rw [List.countP_append, List.countP_append, hts] at hlt
    omega
  · rintro pre t post rfl ht
    rw [← getLast?_append_or]
    exact h.colons (ts ++ pre) t post (by simp) ht

/-- Within a group every comma may stand. -/
lemma Fits.of_group {b : Bool} {o c : Token} (h : Fits b previous (o :: (ts ++ c :: us))) :
    Fits true (some o) ts := by
  constructor
  · intro pre t post _ _ hb
    exact absurd hb (by simp)
  · rintro pre t post rfl ht
    have hcolon := h.colons (o :: pre) t (post ++ c :: us) (by simp) ht
    rw [List.getLast?_cons] at hcolon
    cases hlast : pre.getLast? with
    | none => simpa [hlast] using hcolon
    | some u => simpa [hlast] using hcolon

lemma Nested.scan_eq_ok (h : Nested ts) (hfits : Fits (!stack.isEmpty) previous ts) :
    scan stack previous ts = .ok stack := by
  induction h generalizing stack previous with
  | nil => rfl
  | @other t ts hopener hcloser h ih =>
    have hadvance : advance? stack previous t = some stack := by
      refine advance?_of_other hopener hcloser ?_ ?_
      · rintro hcomma rfl
        have hlt := hfits.commas [] t ts rfl hcomma rfl
        simp at hlt
      · intro hcolon
        simpa using hfits.colons [] t ts rfl hcolon
    rw [scan, hadvance]
    have hbehind : Fits (!stack.isEmpty) (([t].getLast?).or previous) ts :=
      hfits.of_append (by simp [hopener, hcloser])
    exact ih hbehind
  | @group o c name ts us ho h hrest ihh ih =>
    have hc := isCloser_of_opens ho
    have hgroup : Nested (o :: (ts ++ [c])) := .group ho h .nil
    rw [scan, advance?_of_opens ho]
    dsimp only
    have hinner : scan ((openedBy previous o, c.kind) :: stack) (some o) ts =
        .ok ((openedBy previous o, c.kind) :: stack) := ihh hfits.of_group
    rw [scan_append, hinner, ok_bind, scan, advance?_of_closer hc]
    have hbehind : Fits (!stack.isEmpty) ((o :: (ts ++ [c])).getLast?.or previous) us :=
      Fits.of_append (by simpa using hfits) hgroup.countP_eq
    rw [← List.cons_append, List.getLast?_concat] at hbehind
    exact ih hbehind

/-- The accepted lists are those that the scan passes without a group left open. -/
theorem scan_eq_nil_iff : scan [] none ts = .ok [] ↔ Accepted ts := by
  constructor
  · intro h
    have hnested : Nested ts := by
      cases Unclosed.of_scan h with
      | nested h => exact h
    -- the scan passes every token with the stack that the tokens before it leave
    have hsplit : ∀ pre t post, ts = pre ++ t :: post → ∃ stack stack', Unclosed stack pre ∧
        advance? stack pre.getLast? t = some stack' := by
      rintro pre t post rfl
      rw [scan_append] at h
      obtain ⟨stack, hpre, h⟩ := bind_eq_ok_iff.mp h
      refine ⟨stack, ?_⟩
      rw [Option.or_none, scan] at h
      cases hadvance : advance? stack pre.getLast? t with
      | none =>
        rw [hadvance] at h
        cases h
      | some stack' => exact ⟨stack', Unclosed.of_scan hpre, rfl⟩
    refine ⟨hnested, ?_, ?_⟩
    · intro pre t post hts ht
      obtain ⟨stack, stack', hunclosed, hadvance⟩ := hsplit pre t post hts
      have hstack : stack ≠ [] := by
        rcases advance?_cases hadvance with ⟨_, _, ho, -⟩ | ⟨hc, -⟩ | ⟨-, -, -, hcomma, -⟩
        · simp [ht, opens?] at ho
        · simp [ht, isCloser] at hc
        · exact hcomma ht
      have hpos : 0 < stack.length := List.length_pos_iff.mpr hstack
      rw [hunclosed.countP_eq]
      omega
    · intro pre t post hts ht
      obtain ⟨stack, stack', -, hadvance⟩ := hsplit pre t post hts
      rcases advance?_cases hadvance with ⟨_, _, ho, -⟩ | ⟨hc, -⟩ | ⟨-, -, -, -, hcolon⟩
      · simp [ht, opens?] at ho
      · simp [ht, isCloser] at hc
      · simpa [Option.any_eq_true] using hcolon ht
  · intro h
    exact h.nested.scan_eq_ok h.fits

/-! ### Continuing a list -/

lemma Unclosed.isCloser (h : Unclosed stack ts) : ∀ x ∈ stack, isCloser x.2 = true := by
  induction h with
  | nested => simp
  | opened ho h hrest ih =>
    intro x hx
    rcases List.mem_cons.mp hx with rfl | hx
    · exact isCloser_of_opens ho
    · exact ih x hx

/-- The closing tokens that are due. -/
def closers (stack : Openings) : List Token :=
  stack.map fun x => ⟨x.2, .null, .unknown⟩

lemma scan_closers (hstack : ∀ x ∈ stack, isCloser x.2 = true) :
    scan stack previous (closers stack) = .ok [] := by
  induction stack generalizing previous with
  | nil => rfl
  | cons x stack ih =>
    obtain ⟨o, closer⟩ := x
    have hcloser : isCloser (Token.kind ⟨closer, .null, .unknown⟩) = true :=
      hstack (o, closer) List.mem_cons_self
    rw [closers, List.map_cons, scan, advance?_of_closer hcloser]
    exact ih fun y hy => hstack y (List.mem_cons_of_mem _ hy)

/-- A list begins an accepted one if and only if the scan passes it. -/
theorem viable_iff : Viable ts ↔ ∃ stack, scan [] none ts = .ok stack := by
  constructor
  · rintro ⟨us, -, h⟩
    have hscan := scan_eq_nil_iff.mpr h
    rw [scan_append] at hscan
    obtain ⟨stack, hstack, -⟩ := bind_eq_ok_iff.mp hscan
    exact ⟨stack, hstack⟩
  · rintro ⟨stack, h⟩
    have hstack := (Unclosed.of_scan h).isCloser
    refine ⟨closers stack, ?_, ?_⟩
    · intro u hu heof
      obtain ⟨x, hx, rfl⟩ := List.mem_map.mp hu
      have hcloser := hstack x hx
      rw [show x.2 = .eof from heof] at hcloser
      cases hcloser
    · rw [← scan_eq_nil_iff, scan_append, h]
      exact scan_closers hstack

/-- After a token that the scan refuses no list can be accepted. -/
lemma exists_refused (h : scan [] none ts = .error t) :
    ∃ pre post, ts = pre ++ t :: post ∧ Viable pre ∧ ¬Viable (pre ++ [t]) := by
  obtain ⟨pre, post, stack, rfl, hpre, hnone⟩ := scan_eq_error h
  refine ⟨pre, post, rfl, viable_iff.mpr ⟨stack, hpre⟩, ?_⟩
  rw [viable_iff]
  rintro ⟨stack', hstack'⟩
  rw [scan_append, hpre, ok_bind, scan, hnone] at hstack'
  cases hstack'

end Grouping

end LineScript
