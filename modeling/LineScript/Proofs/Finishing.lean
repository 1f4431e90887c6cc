import LineScript.Finishing
import LineScript.Proofs.Reduction.Completeness

/-!
# Finished lists

The trees of a list are finished one by one, and a list that makes up a single phrase is finished
to the tree of this phrase, with or without parentheses around it.
-/

namespace LineScript

namespace Tree

open Traced Reduction

variable {d : Dialect} {t u : Tree} {ts us vs ws : List Tree}

lemma result_finishList_cons (ht : (finish d t).result = .ok u)
    (hts : (finishList d ts).result = .ok us) :
    (finishList d (t :: ts)).result = .ok (u :: us) := by
  rw [finishList, result_bind_of_ok ht, result_bind_of_ok hts]
  rfl

lemma result_finishList_singleton (ht : (finish d t).result = .ok u) :
    (finishList d [t]).result = .ok [u] :=
  result_finishList_cons ht rfl

lemma result_finishList_cons_eq_ok_iff : (finishList d (t :: ts)).result = .ok vs ↔
    ∃ u us, (finish d t).result = .ok u ∧ (finishList d ts).result = .ok us ∧ vs = u :: us := by
  rw [finishList, result_bind_eq_ok_iff]
  constructor
  · rintro ⟨u, hu, h⟩
    obtain ⟨us, hus, h⟩ := result_bind_eq_ok_iff.mp h
    exact ⟨u, us, hu, hus, (Except.ok.inj h).symm⟩
  · rintro ⟨u, us, hu, hus, rfl⟩
    refine ⟨u, hu, ?_⟩
    rw [result_bind_of_ok hus]
    rfl

lemma result_finishList_append (hts : (finishList d ts).result = .ok us)
    (hvs : (finishList d vs).result = .ok ws) :
    (finishList d (ts ++ vs)).result = .ok (us ++ ws) := by
  induction ts generalizing us with
  | nil =>
    obtain rfl : [] = us := Except.ok.inj hts
    exact hvs
  | cons t ts ih =>
    obtain ⟨u, us', hu, hus, rfl⟩ := result_finishList_cons_eq_ok_iff.mp hts
    exact result_finishList_cons hu (ih hus)

/-- What is finished to an operand was one. -/
lemma isOperand_of_result_finish (h : (finish d t).result = .ok u) (hu : u.isOperand = true) :
    t.isOperand = true := by
  cases t with
  | symbol p s f =>
    obtain rfl : .symbol p s f = u := Except.ok.inj h
    exact hu
  | label p n =>
    obtain rfl : .label p n = u := Except.ok.inj h
    exact hu
  | identifier p n =>
    obtain rfl : .identifier p n = u := Except.ok.inj h
    exact hu
  | hole => cases h
  | _ => rfl

lemma result_finishCall_listName (p : Location) (ts : List Tree) :
    (finishCall d p listName ts).result = (reduce d p ts).result := by
  unfold finishCall
  rw [if_pos rfl, result_bind_of_ok (result_step .list)]

lemma result_finishCall_parenName (p : Location) (t : Tree) :
    (finishCall d p parenName [t]).result = .ok t := by
  unfold finishCall
  rw [if_neg (by decide), if_pos rfl, result_bind_of_ok (result_step .paren)]
  rfl

/-- A list that is one phrase is finished to its tree. -/
lemma result_finish_list (hts : (finishList d ts).result = .ok us) (h : Assigned us t)
    (p : Location) : (finish d (.call p listName ts)).result = .ok t := by
  have hreduce := result_reduce_flatten d p (.cons h .nil) (by simp)
  rw [List.flatten_singleton] at hreduce
  rw [finish, result_bind_of_ok hts, result_finishCall_listName, hreduce]
  rfl

/-- Parentheses around one phrase give way to its tree. -/
lemma result_finish_paren (hts : (finishList d ts).result = .ok us) (h : Assigned us t)
    (p q : Location) :
    (finish d (.call p parenName [.call q listName ts])).result = .ok t := by
  have hlist := result_finishList_singleton (result_finish_list hts h q)
  rw [finish, result_bind_of_ok hlist, result_finishCall_parenName]

end Tree

end LineScript
