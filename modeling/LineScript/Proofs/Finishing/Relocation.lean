import LineScript.Finishing
import LineScript.Proofs.Reduction.Relocation
import LineScript.Proofs.Tree.Parts

/-!
# Finishing does not depend on places or joins

To finish a tree at other places, or in another dialect, gives the same tree or the same complaint
there, but for the joins, and the same counts.
-/

namespace LineScript

namespace Tree

open Traced Reduction

variable {φ : Location → Location} {μ : JoinMode → JoinMode} {d : Dialect} {t : Tree}
  {ts : List Tree}

lemma soleContent_recast (p : Location) (group : String) (ts : List Tree) :
    soleContent (φ p) group (ts.map (recast φ μ)) =
      (soleContent p group ts).relocate φ (recast φ μ) := by
  match ts with
  | [] => rfl
  | [t] => rfl
  | t :: u :: ts => simp [soleContent]

lemma finishCall_recast (hμ : μ .string = .string) (d : Dialect) (p : Location) (name : String)
    (ts : List Tree) : finishCall (d.recast μ) (φ p) name (ts.map (recast φ μ)) =
      (finishCall d p name ts).relocate φ (recast φ μ) := by
  unfold finishCall
  split_ifs
  · rw [relocate_step_bind, reduce_recast hμ]
    rfl
  · rw [relocate_step_bind]
    match ts with
    | [] => rfl
    | [t] => rfl
    | t :: u :: ts =>
      dsimp only
      rw [relocate_step_bind, ← reduce_recast hμ]
      simp [Step.relocate]
  · rw [relocate_step_bind, soleContent_recast]
    refine congrArg _ (funext fun _ => (relocate_bind φ fun t _ => ?_).symm)
    rfl
  · rw [relocate_step_bind, soleContent_recast]
    refine congrArg _ (funext fun _ => (relocate_bind φ fun t _ => ?_).symm)
    rfl
  · simp

lemma finishList_recast
    (hts : ∀ t ∈ ts, finish (d.recast μ) (t.recast φ μ) = (finish d t).relocate φ (recast φ μ)) :
    finishList (d.recast μ) (ts.map (recast φ μ)) =
      (finishList d ts).relocate φ (List.map (recast φ μ)) := by
  induction ts with
  | nil => rfl
  | cons t ts ih =>
    rw [List.map_cons, finishList, finishList, hts t List.mem_cons_self,
      ih fun u hu => hts u (List.mem_cons_of_mem _ hu)]
    refine (relocate_bind φ fun u _ => ?_).symm
    refine relocate_bind φ fun us _ => ?_
    rfl

/-- Finishing commutes with every map of places and of ways to join. -/
theorem finish_recast (hμ : μ .string = .string) (d : Dialect) (t : Tree) :
    finish (d.recast μ) (t.recast φ μ) = (finish d t).relocate φ (recast φ μ) := by
  induction t with
  | call p name ts ih =>
    rw [recast_call, finish, finish, finishList_recast ih]
    exact (relocate_bind φ fun us _ => (finishCall_recast hμ d p name us).symm).symm
  | entry p l v _ ih =>
    rw [recast, finish, finish, ih]
    refine (relocate_bind φ fun u _ => ?_).symm
    rfl
  | join p mode ts ih =>
    rw [recast_join, finish, finish, finishList_recast ih]
    refine (relocate_bind φ fun us _ => ?_).symm
    simp
  | bracket p t ih =>
    rw [recast, finish, finish, ih]
    refine (relocate_bind φ fun u _ => ?_).symm
    rfl
  | brace p t ih =>
    rw [recast, finish, finish, ih]
    refine (relocate_bind φ fun u _ => ?_).symm
    rfl
  | hole | symbol | label | identifier | literal | «variable» | void => rfl

/-- Finishing commutes with every map of places. -/
theorem finish_relocate (d : Dialect) (t : Tree) :
    finish d (t.relocate φ) = (finish d t).relocate φ (relocate φ) := by
  have hrelocate : recast φ id = relocate φ := funext (recast_id_right φ)
  have hfinish := finish_recast (φ := φ) (μ := id) rfl d t
  rwa [hrelocate] at hfinish

end Tree

/-- Counting does not look at places. -/
lemma Tally.ofSteps_map_relocate (φ : Location → Location) (steps : List Step) :
    Tally.ofSteps (steps.map (Step.relocate φ)) = Tally.ofSteps steps := by
  have hcount : ∀ kind ∈ [Step.list, .paren, .group],
      (steps.map (Step.relocate φ)).count kind = steps.count kind := by
    intro kind hkind
    rw [List.count, List.countP_map]
    refine List.countP_congr fun s _ => ?_
    simp only [List.mem_cons, List.not_mem_nil, or_false] at hkind
    rcases hkind with rfl | rfl | rfl <;> cases s <;> simp [Step.relocate]
  simp only [ofSteps, hcount, List.mem_cons, true_or, or_true]

end LineScript
