import LineScript.Proofs.Reduction.Rewriting
import LineScript.Proofs.Reduction.Sweep
import LineScript.Proofs.Tree.Relocation

/-!
# Reduction does not depend on places or joins

Every sweep, and reduction as a whole, commutes with a map of places: the record, the complaint
and the resulting tree are the same at other places. They are the same in another dialect too, but
for the joins, as long as the map of the ways to join keeps the one that does not come from the
dialect.
-/

namespace LineScript

/-- The dialect with its way to join exchanged. -/
def Dialect.recast (μ : JoinMode → JoinMode) (d : Dialect) : Dialect := ⟨d.registry, μ d.mode⟩

namespace Reduction

open Traced

variable {φ : Location → Location} {μ : JoinMode → JoinMode} {t : Tree} {ts : List Tree}

/-! ### Checks -/

lemma checkKnown_recast (ts : List Tree) :
    checkKnown (ts.map (Tree.recast φ μ)) = (checkKnown ts).relocate φ id := by
  fun_induction checkKnown ts with
  | case1 => rfl
  | case2 => rfl
  | case3 p s f ts hs ih => simpa [checkKnown, Tree.recast, hs] using ih
  | case4 p s f ts hs => simp [checkKnown, Tree.recast, hs]
  | case5 t ts hhole hsymbol ih =>
    cases t <;> first | exact ih | exact absurd rfl hhole | exact absurd rfl (hsymbol _ _ _)

lemma checkOperand_recast (t : Tree) :
    checkOperand (t.recast φ μ) = (checkOperand t).relocate φ id := by
  cases t <;> rfl

lemma checkConsumed_recast (ts : List Tree) :
    checkConsumed (ts.map (Tree.recast φ μ)) = (checkConsumed ts).relocate φ id := by
  fun_induction checkConsumed ts with
  | case1 => rfl
  | case2 => rfl
  | case3 t ts hsymbol ih =>
    cases t <;> first | exact ih | exact absurd rfl (hsymbol _ _ _)

lemma ne_hole_of_result_checkOperand (h : (checkOperand t).result = .ok ()) : t ≠ .hole :=
  Tree.ne_hole_of_isOperand (isOperand_of_result_checkOperand h)

/-! ### Steps behind an operand -/

lemma postfixFrom_recast (t : Tree) (ts : List Tree) :
    postfixFrom (t.recast φ μ) (ts.map (Tree.recast φ μ)) =
      (postfixFrom t ts).map (Tree.recast φ μ) := by
  fun_induction postfixFrom t ts with
  | case1 t => rfl
  | case2 t p s f ts h ih =>
    have ht := Tree.ne_hole_of_isOperand (Bool.and_eq_true _ _ |>.mp h).2
    rw [List.map_cons, Tree.recast, postfixFrom, Tree.isOperand_recast, if_pos h, ← ih,
      Tree.recast_call, Tree.place_recast φ μ ht]
    rfl
  | case3 t p s f ts h ih =>
    rw [List.map_cons, Tree.recast, postfixFrom, Tree.isOperand_recast, if_neg h, List.map_cons,
      ← ih]
    rfl
  | case4 t u ts hu ih =>
    rw [List.map_cons, List.map_cons, ← ih]
    cases u <;> first | rfl | exact absurd rfl (hu _ _ _)

lemma postfixSweep_recast (ts : List Tree) :
    postfixSweep (ts.map (Tree.recast φ μ)) = (postfixSweep ts).map (Tree.recast φ μ) := by
  cases ts with
  | nil => rfl
  | cons t ts => exact postfixFrom_recast t ts

/-! ### Prefix symbols -/

lemma isPrefixAfter_recast (before : List Tree) (s : String) (f : Fixity) :
    isPrefixAfter (before.map (Tree.recast φ μ)) s f = isPrefixAfter before s f := by
  cases before <;> simp [isPrefixAfter]

lemma absorb_recast (t : Tree) (before : List Tree) :
    absorb (t.recast φ μ) (before.map (Tree.recast φ μ)) =
      (absorb t before).relocate φ (List.map (Tree.recast φ μ)) := by
  fun_induction absorb t before with
  | case1 t p s f before h ih =>
    rw [List.map_cons, Tree.recast, absorb, isPrefixAfter_recast, if_pos h,
      checkOperand_recast]
    refine (relocate_bind φ fun _ _ => ?_).symm
    rw [relocate_step_bind, ← ih]
    simp [Step.relocate]
  | case2 t p s f before h =>
    rw [List.map_cons, Tree.recast, absorb, isPrefixAfter_recast, if_neg h]
    rfl
  | case3 t before hbefore =>
    cases before with
    | nil => rfl
    | cons u before =>
      cases u <;> first | rfl | exact absurd rfl (hbefore _ _ _ _)

lemma prefixFrom_recast (before ts : List Tree) :
    prefixFrom (before.map (Tree.recast φ μ)) (ts.map (Tree.recast φ μ)) =
      (prefixFrom before ts).relocate φ (List.map (Tree.recast φ μ)) := by
  fun_induction prefixFrom before ts with
  | case1 before => simp [prefixFrom]
  | case2 before t ts ht ih =>
    rw [List.map_cons, prefixFrom, Tree.isSymbol_recast, if_pos ht]
    exact ih
  | case3 before t ts ht ih =>
    rw [List.map_cons, prefixFrom, Tree.isSymbol_recast, if_neg ht, absorb_recast]
    exact (relocate_bind φ fun after _ => (ih after).symm).symm

lemma prefixSweep_recast (ts : List Tree) :
    prefixSweep (ts.map (Tree.recast φ μ)) =
      (prefixSweep ts).relocate φ (List.map (Tree.recast φ μ)) :=
  prefixFrom_recast [] ts

/-! ### Binary symbols -/

lemma binaryFrom_recast (tier : Tier) (t : Tree) (ts : List Tree) :
    binaryFrom tier (t.recast φ μ) (ts.map (Tree.recast φ μ)) =
      (binaryFrom tier t ts).relocate φ (List.map (Tree.recast φ μ)) := by
  fun_induction binaryFrom tier t ts with
  | case1 t => rfl
  | case2 t p s f hs => simp [binaryFrom, Tree.recast, hs]
  | case3 t p s f hs u ts ih =>
    rw [List.map_cons, Tree.recast, List.map_cons, binaryFrom, if_pos hs, checkOperand_recast,
      checkOperand_recast]
    refine (relocate_bind φ fun _ ht => ?_).symm
    refine relocate_bind φ fun _ _ => ?_
    rw [relocate_step_bind, ← ih, Tree.recast_call,
      Tree.place_recast φ μ (ne_hole_of_result_checkOperand ht)]
    rfl
  | case4 t p s f ts hs ih =>
    rw [List.map_cons, Tree.recast, binaryFrom_of_not_holds hs]
    rw [Tree.recast] at ih
    rw [ih]
    refine (relocate_bind φ fun us _ => ?_).symm
    rfl
  | case5 t u ts hu ih =>
    have hsymbol : u.isSymbol = false := Tree.isSymbol_eq_false_of_ne hu
    rw [List.map_cons, binaryFrom_of_not_isSymbol (by simpa using hsymbol), ih]
    refine (relocate_bind φ fun us _ => ?_).symm
    rfl

lemma binarySweep_recast (tier : Tier) (ts : List Tree) :
    binarySweep tier (ts.map (Tree.recast φ μ)) =
      (binarySweep tier ts).relocate φ (List.map (Tree.recast φ μ)) := by
  cases ts with
  | nil => rfl
  | cons t ts => exact binaryFrom_recast tier t ts

lemma foldlM_binarySweep_recast (tiers : List Tier) (ts : List Tree) :
    tiers.foldlM (fun ts tier => binarySweep tier ts) (ts.map (Tree.recast φ μ)) =
      (tiers.foldlM (fun ts tier => binarySweep tier ts) ts).relocate φ
        (List.map (Tree.recast φ μ)) := by
  induction tiers generalizing ts with
  | nil => rfl
  | cons tier tiers ih =>
    rw [List.foldlM_cons, List.foldlM_cons, binarySweep_recast]
    exact (relocate_bind φ fun us _ => (ih us).symm).symm

lemma binarySweeps_recast (ts : List Tree) :
    binarySweeps (ts.map (Tree.recast φ μ)) =
      (binarySweeps ts).relocate φ (List.map (Tree.recast φ μ)) :=
  foldlM_binarySweep_recast Tier.all ts

/-! ### Assignments -/

lemma assignment_recast (s : String) (value : Tree) (ht : t ≠ .hole) :
    assignment s (t.recast φ μ) (value.recast φ μ) = (assignment s t value).recast φ μ := by
  unfold assignment
  cases Operator.compound? s <;> simp [Tree.place_recast φ μ ht]

lemma assign_recast (t : Tree) (ts : List Tree) :
    assign (t.recast φ μ) (ts.map (Tree.recast φ μ)) =
      (assign t ts).relocate φ (List.map (Tree.recast φ μ)) := by
  fun_cases assign t ts with
  | case1 p s f hs => simp [assign, Tree.recast, hs]
  | case2 p s f hs u ts =>
    rw [List.map_cons, Tree.recast, List.map_cons, assign, if_pos hs, checkOperand_recast,
      checkOperand_recast]
    refine (relocate_bind φ fun _ ht => ?_).symm
    refine relocate_bind φ fun _ _ => ?_
    rw [relocate_step_bind, assignment_recast s u (ne_hole_of_result_checkOperand ht)]
    rfl
  | case3 p s f ts hs => cases ts <;> simp [assign, Tree.recast, hs]
  | case4 =>
    rename_i hts
    cases ts with
    | nil => rfl
    | cons u ts =>
      cases u <;> first | rfl | exact absurd rfl (hts _ _ _ _)

lemma assignmentSweep_recast (ts : List Tree) :
    assignmentSweep (ts.map (Tree.recast φ μ)) =
      (assignmentSweep ts).relocate φ (List.map (Tree.recast φ μ)) := by
  induction ts with
  | nil => rfl
  | cons t ts ih =>
    rw [List.map_cons, assignmentSweep, ih]
    exact (relocate_bind φ fun us _ => (assign_recast t us).symm).symm

/-! ### Settling -/

/-- The argument of a function that is called by its bare name is joined in one way only. -/
lemma implicitCall_recast (hμ : μ .string = .string) (registry : Registry) (p : Location)
    (name : String) (hne : ts ≠ []) (hts : ∀ t ∈ ts, t ≠ .hole) :
    implicitCall registry (φ p) name (ts.map (Tree.recast φ μ)) =
      (implicitCall registry p name ts).relocate φ (Tree.recast φ μ) := by
  unfold implicitCall
  cases registry.lookup name with
  | none => rfl
  | some descriptor =>
    dsimp only
    rw [relocate_step_bind]
    match ts, hne with
    | [t], _ => simp [Step.relocate]
    | t :: u :: ts, _ =>
      simp [Step.relocate, Tree.place_recast φ μ (hts t List.mem_cons_self), hμ]

/-- The place and the name of a function name that stands by itself. -/
def identifier? : Tree → Option (Location × String)
  | .identifier p name => some (p, name)
  | _ => none

lemma joined_eq (mode : JoinMode) (place : Location) (ts : List Tree) : joined mode place ts =
    match ts.findSome? identifier? with
    | some (p, name) => complain (.misplacedIdentifier name) p
    | none => pure (.join ((ts.head?.map Tree.place).getD place) mode ts) := by
  have heq : (identifier? = fun t =>
      match t with
      | .identifier p name => some (p, name)
      | _ => none) := by
    funext t
    cases t <;> rfl
  rw [heq]
  rfl

lemma findSome?_identifier?_recast (ts : List Tree) :
    (ts.map (Tree.recast φ μ)).findSome? identifier? =
      (ts.findSome? identifier?).map fun (p, name) => (φ p, name) := by
  induction ts with
  | nil => rfl
  | cons t ts ih =>
    cases t with
    | identifier => rfl
    | _ => exact ih

lemma joined_recast (mode : JoinMode) (place : Location) (hts : ∀ t ∈ ts, t ≠ .hole) :
    joined (μ mode) (φ place) (ts.map (Tree.recast φ μ)) =
      (joined mode place ts).relocate φ (Tree.recast φ μ) := by
  rw [joined_eq, joined_eq, findSome?_identifier?_recast]
  cases ts.findSome? identifier? with
  | some x => rfl
  | none =>
    cases ts with
    | nil => rfl
    | cons t ts => simp [Tree.place_recast φ μ (hts t List.mem_cons_self)]

lemma settle_recast (hμ : μ .string = .string) (d : Dialect) (place : Location)
    (hts : ∀ t ∈ ts, t ≠ .hole) :
    settle (d.recast μ) (φ place) (ts.map (Tree.recast φ μ)) =
      (settle d place ts).relocate φ (Tree.recast φ μ) := by
  fun_induction settle d place ts with
  | case1 place p name ts ih =>
    rw [List.map_cons, Tree.recast, settle, ih fun t ht => hts t (List.mem_cons_of_mem _ ht)]
    refine (relocate_bind φ fun v _ => ?_).symm
    rfl
  | case2 place u hu =>
    cases u <;> first | rfl | exact absurd rfl (hu _ _)
  | case3 place p name ts hne =>
    have hrest : ts ≠ [] := fun h => hne (by rw [h])
    rw [← implicitCall_recast hμ d.registry p name hrest fun t ht =>
      hts t (List.mem_cons_of_mem _ ht)]
    obtain ⟨t, ts, rfl⟩ := List.exists_cons_of_ne_nil hrest
    rfl
  | case4 place ts hlabel hsingle hidentifier =>
    rw [← joined_recast d.mode place hts]
    rcases ts with _ | ⟨t, _ | ⟨u, ts⟩⟩
    · rfl
    · exact absurd rfl (hsingle t)
    · cases t <;> first
        | rfl
        | exact absurd rfl (hlabel _ _ _)
        | exact absurd rfl (hidentifier _ _ _)

/-! ### The whole reduction -/

/-- Reduction commutes with every map of places and of ways to join. -/
theorem reduce_recast (hμ : μ .string = .string) (d : Dialect) (place : Location)
    (ts : List Tree) :
    reduce (d.recast μ) (φ place) (ts.map (Tree.recast φ μ)) =
      (reduce d place ts).relocate φ (Tree.recast φ μ) := by
  unfold reduce
  rw [checkKnown_recast]
  refine (relocate_bind φ fun _ hknown => ?_).symm
  rw [postfixSweep_recast, prefixSweep_recast]
  refine relocate_bind φ fun us hus => ?_
  rw [binarySweeps_recast]
  refine relocate_bind φ fun vs hvs => ?_
  rw [assignmentSweep_recast]
  refine relocate_bind φ fun ws hws => ?_
  rw [checkConsumed_recast]
  refine relocate_bind φ fun _ _ => ?_
  have hts := fun t ht => (ne_hole_of_result_checkKnown hknown t ht).1
  have hrewrites : Rewrites ts ws :=
    (((rewrites_postfixSweep ts).trans (rewrites_prefixFrom hus)).trans
      (rewrites_foldlM_binarySweep hvs)).trans (rewrites_assignmentSweep hws)
  exact (settle_recast hμ d place (ne_hole_of_rewrites hrewrites hts)).symm

end Reduction

end LineScript
