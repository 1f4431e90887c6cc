import LineScript.Proofs.Grouping.Composition
import LineScript.Proofs.Grouping.InPlace

/-!
# Runs from a position on

What grouping in place reads between two positions is compared with what a run over marks makes of
the tokens from the first position on (`Script.runFrom`): one equation for each kind of token, and
from them what it means that siblings, an element or the lists of a group are read.
-/

namespace LineScript

namespace Grouping

open Traced

variable {p q : Progress} {t u v o : Token} {name : String} {closer : TokenKind}
  {done siblings ts us : List Tree} {start : Option Location}

/-! ### Within a group -/

namespace Progress

lemma touch_eq_put (p : Progress) (place : Location) : p.touch place = p.put place [] := by
  obtain ⟨regions, groups, siblings⟩ := p
  cases groups <;> rfl

/-- Within a group that was opened here, behind some of its argument lists and behind siblings. -/
def withinGroup (p : Progress) (o : Token) (name : String) (closer : TokenKind) (done : List Tree)
    (start : Option Location) (siblings : List Tree) : Progress :=
  let q := p.touch o.place
  ⟨q.regions, ⟨o, name, closer, done, start, p.siblings⟩ :: q.groups, siblings⟩

lemma put_withinGroup (place : Location) (ts : List Tree) :
    (p.withinGroup o name closer done none []).put place ts =
      p.withinGroup o name closer done (some place) ts.reverse := by
  simp [withinGroup, put, touch]

lemma separate?_withinGroup :
    (p.withinGroup o name closer done start siblings).separate? t = some
      (p.withinGroup o name closer (listOf (start.getD t.place) siblings :: done) none []) := rfl

/-- A group that is closed where it was opened has no argument list. -/
lemma close?_openGroup (hcloser : t.kind = closer) :
    (p.openGroup o name closer).close? t = some (p.push (.call o.place name [])) := by
  simp [close?, openGroup, push, Tree.place, hcloser]

lemma close?_withinGroup (hcloser : t.kind = closer) (hne : done = [] → start ≠ none) :
    (p.withinGroup o name closer done start siblings).close? t = some (p.push (.call o.place name
      (listOf (start.getD t.place) siblings :: done).reverse)) := by
  have hempty : (done.isEmpty && start.isNone) = false := by
    cases done with
    | nil => simpa [Option.ne_none_iff_isSome] using hne rfl
    | cons => rfl
  simp [withinGroup, close?, push, Tree.place, hcloser, hempty]

lemma close?_withinGroup_of_ne (hcloser : t.kind ≠ closer) :
    (p.withinGroup o name closer done start siblings).close? t = none := by
  simp [withinGroup, close?, hcloser.symm]

/-- The region of siblings that are not within a group is placed at the first of them. -/
lemma endRegion_put (regions : List Tree) (place : Location) (u : Tree) (ts : List Tree) :
    (put ⟨regions, [], []⟩ place (u :: ts)).endRegion =
      ⟨.call u.place Tree.listName (u :: ts) :: regions, [], []⟩ := by
  have hput : put ⟨regions, [], []⟩ place (u :: ts) = ⟨regions, [], (u :: ts).reverse⟩ := by
    simp [put, touch]
  have hlist : ∀ start, listOf start (u :: ts).reverse = .call u.place Tree.listName (u :: ts) := by
    simp [listOf]
  rw [hput]
  cases hsiblings : (u :: ts).reverse with
  | nil => simp at hsiblings
  | cons v vs =>
    rw [hsiblings] at hlist
    simp only [endRegion, hlist]

lemma endRegion_endRegion : p.endRegion.endRegion = p.endRegion := by
  obtain ⟨regions, groups, siblings⟩ := p
  cases siblings <;> rfl

end Progress

/-! ### One token -/

lemma ne_eof_of_isCloser {kind : TokenKind} (h : isCloser kind = true) : kind ≠ .eof := by
  rintro rfl
  cases h

lemma canLabel_eq_false_of_isCloser {kind : TokenKind} (h : isCloser kind = true) :
    canLabel kind = false := by
  cases kind <;> first | rfl | cases h

lemma isFree_of_not_canLabel (hcan : canLabel t.kind = false) (ts : List Token) : IsFree t ts := by
  refine fun u _ => ⟨by simp [hcan], ?_⟩
  rintro ⟨hword, -⟩
  simp [hword, canLabel] at hcan

lemma exists_unexpected (s : Source) (t : Token) :
    ∃ e, ∀ α : Type, (s.unexpected t : Except Failure α) = .error e := by
  cases h : Source.plain t.value with
  | error e => exact ⟨e, fun α => by rw [Source.unexpected, h]; rfl⟩
  | ok text => exact ⟨_, fun α => by rw [Source.unexpected, h]; rfl⟩

namespace InPlace

variable {d : Script} {i j k : ℕ} {e : Failure}

/-- What a run makes of the tokens from a position on. -/
def Script.runFrom (d : Script) (p : Progress) (i : ℕ) : Except Failure (List Tree) :=
  d.source.run p (marks (d.tokens.drop i))

lemma drop_eq_cons (ht : d.tokens[i]? = some t) :
    d.tokens.drop i = t :: d.tokens.drop (i + 1) := by
  rw [List.drop_eq_getElem?_toList_append, ht]
  rfl

/-- A token that belongs to no other one is put in its place. -/
lemma runFrom_eq_place (ht : d.tokens[i]? = some t) (hne : t.kind ≠ .eof)
    (hfree : IsFree t (d.tokens.drop (i + 1))) :
    d.runFrom p i = d.source.place p t >>= fun q => d.runFrom q (i + 1) := by
  rw [Script.runFrom, drop_eq_cons ht, marks_of_isFree hfree, Source.run, if_neg hne]
  rfl

lemma runFrom_of_place (ht : d.tokens[i]? = some t) (hne : t.kind ≠ .eof)
    (hfree : IsFree t (d.tokens.drop (i + 1))) (hq : d.source.place p t = .ok q) :
    d.runFrom p i = d.runFrom q (i + 1) := by
  rw [runFrom_eq_place ht hne hfree, hq, ok_bind]

lemma runFrom_newline (ht : d.tokens[i]? = some t) (hline : t.kind = .newline) :
    d.runFrom p i =
      d.runFrom (if p.groups.isEmpty then p.endRegion else p.touch t.place) (i + 1) :=
  runFrom_of_place ht (by simp [hline]) (isFree_of_not_canLabel (by simp [hline, canLabel]) _)
    (Source.place_of_newline hline)

lemma runFrom_comma (ht : d.tokens[i]? = some t) (hcomma : t.kind = .comma)
    (hq : p.separate? t = some q) : d.runFrom p i = d.runFrom q (i + 1) := by
  refine runFrom_of_place ht (by simp [hcomma])
    (isFree_of_not_canLabel (by simp [hcomma, canLabel]) _) ?_
  rw [Source.place_of_comma hcomma, hq]
  rfl

lemma runFrom_closer (ht : d.tokens[i]? = some t) (hcloser : isCloser t.kind = true)
    (hq : p.close? t = some q) : d.runFrom p i = d.runFrom q (i + 1) := by
  refine runFrom_of_place ht (ne_eof_of_isCloser hcloser)
    (isFree_of_not_canLabel (canLabel_eq_false_of_isCloser hcloser) _) ?_
  rw [Source.place_of_isCloser hcloser, hq]
  rfl

lemma runFrom_end (ht : d.tokens[i]? = some t) (heof : t.kind = .eof) :
    d.runFrom p i = d.source.finish p := by
  rw [Script.runFrom, drop_eq_cons ht, marks_cons (by simp [heof, canLabel]), Source.run,
    if_pos heof]

lemma runFrom_label (ht : d.tokens[i]? = some t) (hu : d.tokens[i + 1]? = some u)
    (hcan : canLabel t.kind = true) (hcolon : u.kind = .colon) :
    d.runFrom p i = Source.plain t.value >>= fun text =>
      d.runFrom (p.push (.label t.place text)) (i + 2) := by
  rw [Script.runFrom, drop_eq_cons ht, drop_eq_cons hu, marks_label hcan hcolon, Source.run,
    Source.placeMark, bind_assoc]
  · rfl
  · simp

lemma runFrom_call (ht : d.tokens[i]? = some t) (hu : d.tokens[i + 1]? = some u)
    (hword : t.kind = .word) (hparen : u.kind = .leftParen) :
    d.runFrom p i = d.runFrom (p.openGroup t t.name .rightParen) (i + 2) := by
  have hmarks : ∀ ts, marks (t :: u :: ts) = .call t :: marks ts := by
    intro ts
    rw [marks, if_neg (by simp [hparen]), if_pos (by simp [hword, hparen])]
  rw [Script.runFrom, drop_eq_cons ht, drop_eq_cons hu, hmarks, Source.run]
  · rfl
  · simp

/-! ### Refused tokens -/

/-- A run fails at a token that is refused. -/
lemma runFrom_refused (ht : d.tokens[i]? = some t) (hcan : canLabel t.kind = false)
    (hne : t.kind ≠ .eof) (hplace : d.source.place p t = d.source.unexpected t)
    (he : ∀ α : Type, (d.source.unexpected t : Except Failure α) = .error e) :
    d.runFrom p i = .error e := by
  rw [runFrom_eq_place ht hne (isFree_of_not_canLabel hcan _), hplace, he, error_bind]

lemma runFrom_colon (ht : d.tokens[i]? = some t) (hcolon : t.kind = .colon)
    (he : ∀ α : Type, (d.source.unexpected t : Except Failure α) = .error e) :
    d.runFrom p i = .error e :=
  runFrom_refused ht (by simp [hcolon, canLabel]) (by simp [hcolon])
    (Source.place_of_refused (Or.inl hcolon)) he

lemma runFrom_of_not_closed (ht : d.tokens[i]? = some t) (hcloser : isCloser t.kind = true)
    (hp : p.close? t = none)
    (he : ∀ α : Type, (d.source.unexpected t : Except Failure α) = .error e) :
    d.runFrom p i = .error e := by
  refine runFrom_refused ht (canLabel_eq_false_of_isCloser hcloser) (ne_eof_of_isCloser hcloser)
    ?_ he
  rw [Source.place_of_isCloser hcloser, hp]
  rfl

/-- Where no group is open a comma and a closing token are refused. -/
lemma runFrom_of_no_group (ht : d.tokens[i]? = some t) (hlist : endsList t.kind = true)
    (hne : t.kind ≠ .eof) (hp : p.groups = [])
    (he : ∀ α : Type, (d.source.unexpected t : Except Failure α) = .error e) :
    d.runFrom p i = .error e := by
  have hkind : isCloser t.kind = true ∨ t.kind = .comma := by simpa [endsList, hne] using hlist
  rcases hkind with hcloser | hcomma
  · exact runFrom_of_not_closed ht hcloser (by simp [Progress.close?, hp]) he
  · refine runFrom_refused ht (by simp [hcomma, canLabel]) hne ?_ he
    rw [Source.place_of_comma hcomma, Progress.separate?, hp]
    rfl

/-- Where no group is open a line feed ends the region, and so does the end of the script. -/
lemma runFrom_endRegion (ht : d.tokens[i]? = some t) (hend : t.kind = .newline ∨ t.kind = .eof)
    (hp : p.groups = []) : d.runFrom p i = d.runFrom p.endRegion i := by
  have hgroups : p.endRegion.groups = [] := (Progress.groups_endRegion p).trans hp
  rcases hend with hline | heof
  · rw [runFrom_newline ht hline, runFrom_newline ht hline, hp, hgroups,
      Progress.endRegion_endRegion]
    rfl
  · rw [runFrom_end ht heof, runFrom_end ht heof, Source.finish, Source.finish, hp, hgroups,
      Progress.endRegion_endRegion]

/-! ### Siblings -/

/-- A list that has come to `siblings`, within a group or not. -/
structure IsAt (p : Progress) (inGroup : Bool) (siblings : List Tree) : Prop where
  siblings_eq : p.siblings = siblings
  isEmpty_groups : p.groups.isEmpty = !inGroup

lemma IsAt.put {inGroup : Bool} (h : IsAt p inGroup siblings) (place : Location) (ts : List Tree) :
    IsAt (p.put place ts) inGroup (ts.reverse ++ siblings) := by
  obtain ⟨regions, groups, siblings⟩ := p
  obtain ⟨rfl, hgroups⟩ := h
  refine ⟨rfl, ?_⟩
  cases groups with
  | nil => exact hgroups
  | cons => exact hgroups

/-- A list ends at the position. -/
def Script.ListEndsAt (d : Script) (inGroup : Bool) (i : ℕ) : Prop :=
  ∃ t, d.tokens[i]? = some t ∧ (endsList t.kind = true ∨ inGroup = false ∧ t.kind = .newline)

/-- Behind `siblings` a run reads further siblings `ts` between two positions. -/
structure Script.Passes (d : Script) (inGroup : Bool) (siblings : List Tree) (i j : ℕ)
    (ts : List Tree) : Prop where
  lt : i < j
  place_head : inGroup = false → ∀ t, d.tokens[i]? = some t → ∃ u ∈ ts.head?, u.place = t.place
  runFrom_eq : ∀ t, d.tokens[i]? = some t → ∀ p, IsAt p inGroup siblings →
    d.runFrom p i = d.runFrom (p.put t.place ts) j

lemma Script.Passes.trans {inGroup : Bool} (hj : d.tokens[j]? = some u)
    (h : d.Passes inGroup siblings i j ts)
    (h' : d.Passes inGroup (ts.reverse ++ siblings) j k us) :
    d.Passes inGroup siblings i k (ts ++ us) := by
  refine ⟨Nat.lt_trans h.lt h'.lt, ?_, ?_⟩
  · intro hgroup t ht
    obtain ⟨v, hv, hplace⟩ := h.place_head hgroup t ht
    exact ⟨v, by simp [Option.mem_def.mp hv], hplace⟩
  · intro t ht p hp
    rw [h.runFrom_eq t ht p hp, h'.runFrom_eq u hj _ (hp.put _ _), Progress.put_put]

/-- Behind `siblings` a run comes to `us` between two positions; if these are the same, nothing is
read. -/
def Script.ReadsOn (d : Script) (inGroup : Bool) (siblings : List Tree) (i j : ℕ)
    (us : List Tree) : Prop :=
  (j = i ∧ us = siblings) ∨ ∃ ts, us = ts.reverse ++ siblings ∧ d.Passes inGroup siblings i j ts

lemma Script.Passes.readsOn {inGroup : Bool} (hj : d.tokens[j]? = some u)
    (h : d.Passes inGroup siblings i j ts)
    (h' : d.ReadsOn inGroup (ts.reverse ++ siblings) j k us) :
    d.ReadsOn inGroup siblings i k us := by
  obtain ⟨rfl, rfl⟩ | ⟨vs, rfl, hpasses⟩ := h'
  · exact Or.inr ⟨ts, rfl, h⟩
  · exact Or.inr ⟨ts ++ vs, by simp, h.trans hj hpasses⟩

/-- Behind `siblings` a run reads an element between two positions. -/
structure Script.ReadsElement (d : Script) (siblings : List Tree) (i j : ℕ) (u : Tree) : Prop where
  lt : i < j
  place_eq : ∀ t, d.tokens[i]? = some t → u.place = t.place
  runFrom_eq : ∀ p : Progress, p.siblings = siblings → d.runFrom p i = d.runFrom (p.push u) j

lemma Script.ReadsElement.passes {inGroup : Bool} {u : Tree} (h : d.ReadsElement siblings i j u) :
    d.Passes inGroup siblings i j [u] := by
  refine ⟨h.lt, fun _ t ht => ⟨u, rfl, h.place_eq t ht⟩, fun t ht p hp => ?_⟩
  rw [h.runFrom_eq p hp.siblings_eq, Progress.push_eq_put, h.place_eq t ht]

/-- A line feed within a group is passed. -/
lemma passes_newline (ht : d.tokens[i]? = some t) (hline : t.kind = .newline) :
    d.Passes true siblings i (i + 1) [] := by
  refine ⟨Nat.lt_succ_self i, fun h => (by cases h), fun u hu p hp => ?_⟩
  obtain rfl : t = u := Option.some.inj (ht.symm.trans hu)
  rw [runFrom_newline ht hline, hp.isEmpty_groups, ← Progress.touch_eq_put]
  rfl

/-! ### Argument lists -/

/-- Behind the lists `done` of a group a run reads its other ones and its end between two positions;
`lists` are all of them. -/
def Script.ReadsLists (d : Script) (closer : TokenKind) (o : Token) (done : List Tree) (i j : ℕ)
    (lists : List Tree) : Prop :=
  isCloser closer = true → ∀ (p : Progress) name,
    d.runFrom (p.withinGroup o name closer done none []) i =
      d.runFrom (p.push (.call o.place name lists)) j

/-- Behind the lists `done` of a group a run comes to a failure. -/
def Script.FailsBehind (d : Script) (closer : TokenKind) (o : Token) (done : List Tree) (i : ℕ)
    (e : Failure) : Prop :=
  isCloser closer = true → ∀ (p : Progress) name,
    d.runFrom (p.withinGroup o name closer done none []) i = .error e

/-- Between two positions a run passes from the lists `done` of a group on to `lists`. -/
def Script.PassesLists (d : Script) (closer : TokenKind) (o : Token) (done : List Tree) (i j : ℕ)
    (lists : List Tree) : Prop :=
  isCloser closer = true → ∀ (p : Progress) name,
    d.runFrom (p.withinGroup o name closer done none []) i =
      d.runFrom (p.withinGroup o name closer lists none []) j

/-- The siblings of an argument list, as a run within the group knows them: the list has begun at
its first token, or there is nothing but the end of it. -/
lemma exists_start (ht : d.tokens[i]? = some t) (hv : d.tokens[j]? = some v)
    (h : d.ReadsOn true [] i j us) :
    ∃ start : Option Location, start.getD v.place = t.place ∧ (start = none → v = t) ∧
      ∀ (p : Progress) o name closer done,
        d.runFrom (p.withinGroup o name closer done none []) i =
          d.runFrom (p.withinGroup o name closer done start us) j := by
  obtain ⟨rfl, rfl⟩ | ⟨ts, rfl, hpasses⟩ := h
  · obtain rfl : t = v := Option.some.inj (ht.symm.trans hv)
    exact ⟨none, rfl, fun _ => rfl, fun _ _ _ _ _ => rfl⟩
  · refine ⟨some t.place, rfl, by simp, fun p o name closer done => ?_⟩
    rw [hpasses.runFrom_eq t ht _ ⟨rfl, rfl⟩, Progress.put_withinGroup, List.append_nil]

end InPlace

end Grouping

end LineScript
