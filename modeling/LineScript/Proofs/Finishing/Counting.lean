import LineScript.Finishing
import LineScript.Proofs.Reduction.Rewriting
import LineScript.Proofs.Tree.Parts

/-!
# The steps that finishing counts

Reduction takes no step that is counted, and finishing takes one for every call of structure that it
meets. So a tree that can be finished has as many counted steps as it has such calls
(`Tree.count_finish`).
-/

namespace LineScript

/-! ### Steps that are not counted -/

/-- The step is one of those that are counted. -/
def Step.isCounted : Step → Bool
  | .list | .paren | .group => true
  | _ => false

namespace Traced

variable {α β : Type} {x : Traced α} {s : Step}

/-- None of the steps is counted. -/
def IsQuiet (x : Traced α) : Prop := ∀ s ∈ x.steps, s.isCounted = false

namespace IsQuiet

lemma pure (a : α) : IsQuiet (Pure.pure a : Traced α) := by simp [IsQuiet]

lemma fail (f : Failure) : IsQuiet (Traced.fail f : Traced α) := by simp [IsQuiet, Traced.fail]

lemma complain (c : Complaint) (p : Location) : IsQuiet (Traced.complain c p : Traced α) := by
  simp [IsQuiet, Traced.complain]

lemma step (h : s.isCounted = false) : IsQuiet (Traced.step s) := by simpa [IsQuiet] using h

lemma bind {f : α → Traced β} (hx : IsQuiet x) (hf : ∀ a, IsQuiet (f a)) : IsQuiet (x >>= f) := by
  obtain ⟨steps, result⟩ := x
  cases result with
  | error e => exact hx
  | ok a =>
    intro s hs
    rcases List.mem_append.mp hs with hs | hs
    · exact hx s hs
    · exact hf a s hs

lemma count_eq_zero (hx : IsQuiet x) (hs : s.isCounted = true) : x.steps.count s = 0 :=
  List.count_eq_zero_of_not_mem fun hmem => by simp [hx s hmem] at hs

end IsQuiet

lemma count_step_bind (a : Step) (f : Unit → Traced β) :
    (Traced.step a >>= f).steps.count s = (if a = s then 1 else 0) + (f ()).steps.count s := by
  rw [steps_bind_of_ok (result_step a), steps_step, List.count_append, List.count_singleton]
  simp

lemma steps_bind_pure (x : Traced α) (f : α → β) :
    (x >>= fun a => Pure.pure (f a)).steps = x.steps := by
  obtain ⟨steps, result⟩ := x
  cases result with
  | error e => rfl
  | ok a => exact List.append_nil steps

end Traced

/-! ### Reduction -/

namespace Reduction

open Traced

variable {d : Dialect} {place : Location}

lemma isQuiet_checkKnown (ts : List Tree) : IsQuiet (checkKnown ts) := by
  fun_induction checkKnown ts with
  | case1 => exact .pure _
  | case2 => exact .fail _
  | case3 p s f ts _ ih | case5 t ts _ _ ih => exact ih
  | case4 => exact .complain _ _

lemma isQuiet_checkOperand (t : Tree) : IsQuiet (checkOperand t) := by
  fun_cases checkOperand t with
  | case1 => exact .fail _
  | case2 | case3 | case4 => exact .complain _ _
  | case5 => exact .pure _

lemma isQuiet_checkConsumed (ts : List Tree) : IsQuiet (checkConsumed ts) := by
  fun_induction checkConsumed ts with
  | case1 => exact .pure _
  | case2 => exact .complain _ _
  | case3 t ts _ ih => exact ih

lemma isQuiet_absorb (t : Tree) (before : List Tree) : IsQuiet (absorb t before) := by
  fun_induction absorb t before with
  | case1 t p s f before _ ih =>
    exact (isQuiet_checkOperand t).bind fun _ => (IsQuiet.step rfl).bind fun _ => ih
  | case2 | case3 => exact .pure _

lemma isQuiet_prefixFrom (before ts : List Tree) : IsQuiet (prefixFrom before ts) := by
  fun_induction prefixFrom before ts with
  | case1 => exact .pure _
  | case2 before t ts _ ih => exact ih
  | case3 before t ts _ ih => exact (isQuiet_absorb t before).bind ih

lemma isQuiet_binaryFrom (tier : Tier) (t : Tree) (ts : List Tree) :
    IsQuiet (binaryFrom tier t ts) := by
  fun_induction binaryFrom tier t ts with
  | case1 => exact .pure _
  | case2 => exact .complain _ _
  | case3 t p s f _ right ts ih =>
    refine (isQuiet_checkOperand t).bind fun _ => (isQuiet_checkOperand right).bind fun _ => ?_
    exact (IsQuiet.step rfl).bind fun _ => ih
  | case4 t p s f ts _ ih | case5 t u ts _ ih => exact ih.bind fun _ => .pure _

lemma isQuiet_binarySweeps (tiers : List Tier) (ts : List Tree) :
    IsQuiet (tiers.foldlM (fun ts tier => binarySweep tier ts) ts) := by
  induction tiers generalizing ts with
  | nil => exact .pure _
  | cons tier tiers ih =>
    have hsweep : IsQuiet (binarySweep tier ts) := by
      cases ts with
      | nil => exact .pure _
      | cons t ts => exact isQuiet_binaryFrom tier t ts
    rw [List.foldlM_cons]
    exact hsweep.bind ih

lemma isQuiet_assign (t : Tree) (ts : List Tree) : IsQuiet (assign t ts) := by
  fun_cases assign t ts with
  | case1 => exact .complain _ _
  | case2 p s f _ right ts =>
    refine (isQuiet_checkOperand t).bind fun _ => (isQuiet_checkOperand right).bind fun _ => ?_
    exact (IsQuiet.step rfl).bind fun _ => .pure _
  | case3 | case4 => exact .pure _

lemma isQuiet_assignmentSweep (ts : List Tree) : IsQuiet (assignmentSweep ts) := by
  induction ts with
  | nil => exact .pure _
  | cons t ts ih => exact ih.bind (isQuiet_assign t)

lemma isQuiet_implicitCall (registry : Registry) (p : Location) (name : String) (ts : List Tree) :
    IsQuiet (implicitCall registry p name ts) := by
  unfold implicitCall
  cases registry.lookup name with
  | none => exact .fail _
  | some descriptor => exact (IsQuiet.step rfl).bind fun _ => .pure _

lemma isQuiet_joined (mode : JoinMode) (place : Location) (ts : List Tree) :
    IsQuiet (joined mode place ts) := by
  unfold joined
  dsimp only
  split
  · exact .complain _ _
  · exact .pure _

lemma isQuiet_settle (d : Dialect) (place : Location) (ts : List Tree) :
    IsQuiet (settle d place ts) := by
  fun_induction settle d place ts with
  | case1 place p name ts ih => exact ih.bind fun _ => .pure _
  | case2 => exact .pure _
  | case3 place p name ts => exact isQuiet_implicitCall d.registry p name ts
  | case4 place ts => exact isQuiet_joined d.mode place ts

/-- Reduction takes no step that is counted. -/
theorem isQuiet_reduce (d : Dialect) (place : Location) (ts : List Tree) :
    IsQuiet (reduce d place ts) := by
  refine (isQuiet_checkKnown ts).bind fun _ => (isQuiet_prefixFrom [] _).bind fun us => ?_
  refine (isQuiet_binarySweeps Tier.all us).bind fun vs => ?_
  refine (isQuiet_assignmentSweep vs).bind fun ws => ?_
  exact (isQuiet_checkConsumed ws).bind fun _ => isQuiet_settle d place ws

end Reduction

/-! ### Finishing -/

namespace Tree

open Traced

variable {d : Dialect} {s : Step} {t u : Tree} {ts us : List Tree}

/-- The step that is counted for a call of the name. -/
def countedStep? (name : String) : Option Step :=
  if name = listName then some .list
  else if name = parenName then some .paren
  else if name = bracketName then some .group
  else if name = braceName then some .group
  else none

lemma countedStep?_eq_list :
    (fun name => decide (countedStep? name = some .list)) = (· = listName) := by
  funext name
  unfold countedStep?
  split_ifs with hlist <;> simp [hlist]

lemma countedStep?_eq_paren :
    (fun name => decide (countedStep? name = some .paren)) = (· = parenName) := by
  funext name
  unfold countedStep?
  split_ifs with hlist hparen <;> simp_all [listName, parenName]

lemma countedStep?_eq_group :
    (fun name => decide (countedStep? name = some .group)) =
      fun name => name = bracketName || name = braceName := by
  funext name
  unfold countedStep?
  split_ifs with hlist hparen <;> simp_all [listName, parenName, bracketName, braceName]

mutual

/-- The calls that finishing meets whose names are wanted. The label of an entry is passed over. -/
def callCount (wanted : String → Bool) : Tree → ℕ
  | .call _ name children => (if wanted name then 1 else 0) + callCountList wanted children
  | .entry _ _ v => callCount wanted v
  | .join _ _ children => callCountList wanted children
  | .bracket _ content | .brace _ content => callCount wanted content
  | _ => 0

/-- The calls that finishing meets in trees. -/
def callCountList (wanted : String → Bool) : List Tree → ℕ
  | [] => 0
  | t :: ts => callCount wanted t + callCountList wanted ts

end

lemma isQuiet_soleContent (place : Location) (group : String) (ts : List Tree) :
    IsQuiet (soleContent place group ts) := by
  unfold soleContent
  split
  · exact .pure _
  · exact .pure _
  · exact .complain _ _

/-- A call of structure is one counted step, and every other call is none. -/
lemma count_finishCall (hs : s.isCounted = true) (place : Location) (name : String)
    (ts : List Tree) :
    (finishCall d place name ts).steps.count s = if countedStep? name = some s then 1 else 0 := by
  have hquiet : ∀ {α : Type} {x : Traced α} {a : Step}, IsQuiet x →
      (Traced.step a >>= fun _ => x).steps.count s = if some a = some s then 1 else 0 := by
    intro α x a hx
    rw [count_step_bind, hx.count_eq_zero hs, Nat.add_zero]
    simp
  unfold finishCall countedStep?
  by_cases hlist : name = listName
  · rw [if_pos hlist, if_pos hlist]
    exact hquiet (Reduction.isQuiet_reduce d place ts)
  rw [if_neg hlist, if_neg hlist]
  by_cases hparen : name = parenName
  · rw [if_pos hparen, if_pos hparen]
    refine hquiet ?_
    match ts with
    | [] | [t] => exact .pure _
    | t :: u :: ts =>
      exact (IsQuiet.step rfl).bind fun _ => Reduction.isQuiet_reduce d place (t :: u :: ts)
  rw [if_neg hparen, if_neg hparen]
  by_cases hbracket : name = bracketName
  · rw [if_pos hbracket, if_pos hbracket]
    exact hquiet ((isQuiet_soleContent place "[]" ts).bind fun _ => .pure _)
  rw [if_neg hbracket, if_neg hbracket]
  by_cases hbrace : name = braceName
  · rw [if_pos hbrace, if_pos hbrace]
    exact hquiet ((isQuiet_soleContent place "\x7b\x7d" ts).bind fun _ => .pure _)
  rw [if_neg hbrace, if_neg hbrace]
  rfl

lemma count_finishList
    (ih : ∀ t ∈ ts, ∀ u, (finish d t).result = .ok u →
      (finish d t).steps.count s = callCount (countedStep? · = some s) t)
    (h : (finishList d ts).result = .ok us) :
    (finishList d ts).steps.count s = callCountList (countedStep? · = some s) ts := by
  induction ts generalizing us with
  | nil => rfl
  | cons t ts ihts =>
    obtain ⟨ht, hts⟩ := List.forall_mem_cons.mp ih
    rw [finishList] at h ⊢
    obtain ⟨u, hu, h⟩ := result_bind_eq_ok_iff.mp h
    obtain ⟨vs, hvs, -⟩ := result_bind_eq_ok_iff.mp h
    rw [steps_bind_of_ok hu, List.count_append, steps_bind_pure, ht u hu, ihts hts hvs,
      callCountList]

/-- A tree that can be finished takes the counted steps of the calls in it. -/
theorem count_finish (hs : s.isCounted = true) (h : (finish d t).result = .ok u) :
    (finish d t).steps.count s = callCount (countedStep? · = some s) t := by
  induction t generalizing u with
  | hole => cases h
  | symbol | label | identifier | literal | «variable» | void => rfl
  | call p name ts ih =>
    rw [finish] at h ⊢
    obtain ⟨us, hus, -⟩ := result_bind_eq_ok_iff.mp h
    rw [steps_bind_of_ok hus, List.count_append, count_finishCall hs,
      count_finishList (fun t ht u => ih t ht) hus, callCount, Nat.add_comm]
    simp
  | entry p l v _ ih =>
    rw [finish] at h ⊢
    obtain ⟨v', hv, -⟩ := result_bind_eq_ok_iff.mp h
    rw [steps_bind_pure, ih hv, callCount]
  | join p mode ts ih =>
    rw [finish] at h ⊢
    obtain ⟨us, hus, -⟩ := result_bind_eq_ok_iff.mp h
    rw [steps_bind_pure, count_finishList (fun t ht u => ih t ht) hus, callCount]
  | bracket p t ih | brace p t ih =>
    rw [finish] at h ⊢
    obtain ⟨v, hv, -⟩ := result_bind_eq_ok_iff.mp h
    rw [steps_bind_pure, ih hv, callCount]

end Tree

end LineScript
