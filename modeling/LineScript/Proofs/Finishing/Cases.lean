import LineScript.Proofs.Finishing
import LineScript.Proofs.Grouping.Region

/-!
# All that finishing can do

A call is finished after its children, and its name alone decides what becomes of it. The calls
that hold structure make way for other trees (`FinishedCall`); all others stay. What holds between
an element and its finished tree is proved from the leaves up (`Carries`).
-/

namespace LineScript

namespace Tree

open Traced Reduction

/-- The names of the calls that hold structure. -/
def structuralNames : List String := [listName, parenName, bracketName, braceName]

variable {d : Dialect} {p : Location} {name : String} {t u : Tree} {ts us : List Tree}

/-- What a group with at most one tree holds. -/
inductive SoleContent (p : Location) : List Tree → Tree → Prop where
  | void : SoleContent p [] (.void p)
  | tree (t : Tree) : SoleContent p [t] t

/-- What a call with finished children becomes. -/
inductive FinishedCall (d : Dialect) (p : Location) : String → List Tree → Tree → Prop where
  | list {ts : List Tree} {t : Tree} (h : (reduce d p ts).result = .ok t) :
      FinishedCall d p listName ts t
  | paren {ts : List Tree} {t : Tree} (h : SoleContent p ts t) : FinishedCall d p parenName ts t
  | parenList {ts : List Tree} {t : Tree} (h : (reduce d p ts).result = .ok t) :
      FinishedCall d p parenName ts t
  | bracket {ts : List Tree} {t : Tree} (h : SoleContent p ts t) :
      FinishedCall d p bracketName ts (.bracket p t)
  | brace {ts : List Tree} {t : Tree} (h : SoleContent p ts t) :
      FinishedCall d p braceName ts (.brace p t)
  | call {name : String} {ts : List Tree} (hname : name ∉ structuralNames) :
      FinishedCall d p name ts (.call p name ts)

lemma soleContent_of_result {group : String} (h : (soleContent p group ts).result = .ok t) :
    SoleContent p ts t := by
  match ts with
  | [] =>
    obtain rfl := Except.ok.inj h
    exact .void
  | [u] =>
    obtain rfl := Except.ok.inj h
    exact .tree u
  | u :: v :: ts => exact absurd h result_complain_ne_ok

lemma finishedCall_of_result (h : (finishCall d p name ts).result = .ok t) :
    FinishedCall d p name ts t := by
  unfold finishCall at h
  split_ifs at h with hlist hparen hbracket hbrace
  · obtain ⟨⟨⟩, -, h⟩ := result_bind_eq_ok_iff.mp h
    exact hlist ▸ .list h
  · obtain ⟨⟨⟩, -, h⟩ := result_bind_eq_ok_iff.mp h
    subst hparen
    match ts with
    | [] =>
      obtain rfl := Except.ok.inj h
      exact .paren .void
    | [u] =>
      obtain rfl := Except.ok.inj h
      exact .paren (.tree u)
    | u :: v :: ts =>
      obtain ⟨⟨⟩, -, h⟩ := result_bind_eq_ok_iff.mp h
      exact .parenList h
  · obtain ⟨⟨⟩, -, h⟩ := result_bind_eq_ok_iff.mp h
    obtain ⟨u, hu, h⟩ := result_bind_eq_ok_iff.mp h
    obtain rfl := Except.ok.inj h
    exact hbracket ▸ .bracket (soleContent_of_result hu)
  · obtain ⟨⟨⟩, -, h⟩ := result_bind_eq_ok_iff.mp h
    obtain ⟨u, hu, h⟩ := result_bind_eq_ok_iff.mp h
    obtain rfl := Except.ok.inj h
    exact hbrace ▸ .brace (soleContent_of_result hu)
  · obtain rfl := Except.ok.inj h
    refine .call ?_
    simp [structuralNames, hlist, hparen, hbracket, hbrace]

/-- The trees of a list are finished one by one. -/
lemma forall₂_of_result_finishList (h : (finishList d ts).result = .ok us) :
    List.Forall₂ (fun t u => (finish d t).result = .ok u) ts us := by
  induction ts generalizing us with
  | nil =>
    obtain rfl := Except.ok.inj h
    exact .nil
  | cons t ts ih =>
    obtain ⟨u, hu, h⟩ := result_bind_eq_ok_iff.mp h
    obtain ⟨vs, hvs, h⟩ := result_bind_eq_ok_iff.mp h
    obtain rfl := Except.ok.inj h
    exact .cons hu (ih hvs)

lemma finishedCall_of_result_finish (h : (finish d (.call p name ts)).result = .ok u) :
    ∃ us, List.Forall₂ (fun t u => (finish d t).result = .ok u) ts us ∧
      FinishedCall d p name us u := by
  obtain ⟨us, hus, h⟩ := result_bind_eq_ok_iff.mp h
  exact ⟨us, forall₂_of_result_finishList hus, finishedCall_of_result h⟩

lemma result_reduce_of_result_finish (h : (finish d (.call p listName ts)).result = .ok u) :
    ∃ us, List.Forall₂ (fun t u => (finish d t).result = .ok u) ts us ∧
      (reduce d p us).result = .ok u := by
  obtain ⟨us, hus, h⟩ := result_bind_eq_ok_iff.mp h
  rw [result_finishCall_listName] at h
  exact ⟨us, forall₂_of_result_finishList hus, h⟩

/-- The tree of a single token is finished. -/
lemma eq_of_finish_bears {registry : Registry} {tokens : List Token}
    (ht : Grouping.Bears registry tokens t) (hu : (finish d t).result = .ok u) : t = u := by
  rcases ht.cases with ⟨p, n, rfl⟩ | ⟨v, -, -, f, rfl⟩ | ⟨p, n, -, rfl⟩ | ⟨p, v, rfl⟩ |
    ⟨p, n, rfl⟩ <;> exact Except.ok.inj hu

/-! ### From the leaves up -/

/-- What a single token becomes, what a list is reduced to and what a group of finished lists
becomes: `R` relates elements to their finished trees and `L` lists. -/
structure Carries (d : Dialect) (P : Tree → Prop) (R : Tree → Tree → Prop)
    (L : Grouping.Siblings → Tree → Prop) : Prop where
  atom : ∀ t u, P t → (finish d t).result = .ok u → R t u
  list : ∀ l us u, List.Forall₂ R l.2 us → (reduce d l.1 us).result = .ok u → L l u
  group : ∀ p name ls us u, List.Forall₂ L ls us → FinishedCall d p name us u →
    R (.call p name (ls.map Grouping.Siblings.call)) u

lemma forall₂_imp_of_mem {α β : Type} {R S : α → β → Prop} {l : List α} {m : List β}
    (h : List.Forall₂ R l m) (hRS : ∀ a ∈ l, ∀ b, R a b → S a b) : List.Forall₂ S l m := by
  induction h with
  | nil => exact .nil
  | cons hr _ ih =>
    exact .cons (hRS _ List.mem_cons_self _ hr) (ih fun a ha => hRS a (List.mem_cons_of_mem _ ha))

lemma forall_of_forall₂ {α β : Type} {S : β → Prop} {l : List α} {m : List β}
    (h : List.Forall₂ (fun _ => S) l m) : ∀ b ∈ m, S b := by
  induction h with
  | nil => simp
  | cons hb _ ih => exact List.forall_mem_cons.mpr ⟨hb, ih⟩

namespace Carries

open Grouping

variable {P : Tree → Prop} {R : Tree → Tree → Prop} {L : Siblings → Tree → Prop}

lemma siblings (h : Carries d P R L) {l : Siblings}
    (hl : ∀ e ∈ l.2, ∀ u, (finish d e).result = .ok u → R e u)
    (hu : (finish d l.call).result = .ok u) : L l u := by
  obtain ⟨us, hus, hu⟩ := result_reduce_of_result_finish hu
  exact h.list l us u (forall₂_imp_of_mem hus hl) hu

lemma element (h : Carries d P R L) (ht : IsElement P t) :
    ∀ u, (finish d t).result = .ok u → R t u := by
  induction ht with
  | atom ht => exact fun u => h.atom _ u ht
  | @group p name ls _ ih =>
    intro u hu
    obtain ⟨us, hus, hcall⟩ := finishedCall_of_result_finish hu
    refine h.group p name ls us u ?_ hcall
    rw [List.forall₂_map_left_iff] at hus
    exact forall₂_imp_of_mem hus fun l hl v hv => h.siblings (ih l hl) hv

/-- What is carried up to the lists holds of whole regions. -/
theorem region (h : Carries d P R L) {l : Siblings} (hl : ∀ e ∈ l.2, IsElement P e)
    (hu : (finish d l.call).result = .ok u) : L l u :=
  h.siblings (fun e he => h.element (hl e he)) hu

end Carries

end Tree

end LineScript
