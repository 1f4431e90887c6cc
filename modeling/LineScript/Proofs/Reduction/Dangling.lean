import LineScript.Proofs.Reduction.Leading

/-!
# Dangling operators

A list that can be reduced cannot be reduced any more once an operator without an operand stands
behind it or in front of it, and it is this operator that is blamed. Which sweep finds it depends
on the operator: a binary symbol behind the list is found by its own tier, an assignment by the
assignments, a prefix symbol by the check of what is left. Until then all sweeps treat the list
beside the operator as they treat it by itself, so that none of them refuses anything else.
-/

namespace LineScript

namespace Reduction

open Traced LineScript.Tree

variable {d : Dialect} {place p q : Location} {s : String} {f : Fixity} {ts us : List Tree}
  {l t : Tree} {tier : Tier} {tiers : List Tier}

/-! ### A symbol behind a list -/

/-- A sweep leaves a tree where it is behind a list, and treats the list as without it. -/
def LeavesLast (l : Tree) (sweep : List Tree → Traced (List Tree)) : Prop :=
  ∀ ⦃ts us : List Tree⦄, (sweep ts).result = .ok us → (sweep (ts ++ [l])).result = .ok (us ++ [l])

lemma unassigned_of_not_isAssignment (h : Operator.isAssignment s = false) :
    unassigned s = .misplacedSymbol s := by
  rw [unassigned, Operator.compound?_of_not_isAssignment h]
  rfl

lemma postfixFrom_append_symbol (h : Operator.isPostfix s f = false) (t : Tree) (ts : List Tree) :
    postfixFrom t (ts ++ [.symbol p s f]) = postfixFrom t ts ++ [.symbol p s f] := by
  fun_induction postfixFrom t ts with
  | case1 t => simp [postfixFrom, h]
  | case2 t p' s' f' ts hstep ih =>
    rw [List.cons_append, postfixFrom, if_pos hstep]
    exact ih
  | case3 t p' s' f' ts hstep ih =>
    rw [List.cons_append, postfixFrom, if_neg hstep, ih]
    rfl
  | case4 t u ts hu ih =>
    cases u with
    | symbol => exact absurd rfl (hu _ _ _)
    | _ => exact congrArg (List.cons t) ih

lemma postfixSweep_append_symbol (h : Operator.isPostfix s f = false) (ts : List Tree) :
    postfixSweep (ts ++ [.symbol p s f]) = postfixSweep ts ++ [.symbol p s f] := by
  cases ts with
  | nil => rfl
  | cons t ts => exact postfixFrom_append_symbol h t ts

/-- The last symbol finds nothing to be the prefix of. -/
lemma leavesLast_prefixFrom (hl : l.isSymbol = true) (before : List Tree) :
    LeavesLast l (prefixFrom before) := by
  intro ts us h
  fun_induction prefixFrom before ts with
  | case1 before =>
    obtain rfl : before.reverse = us := Except.ok.inj h
    rw [List.nil_append, prefixFrom, if_pos hl, prefixFrom, List.reverse_cons]
    rfl
  | case2 before t ts ht ih =>
    rw [List.cons_append, prefixFrom, if_pos ht]
    exact ih h
  | case3 before t ts ht ih =>
    obtain ⟨after, hafter, h⟩ := result_bind_eq_ok_iff.mp h
    rw [List.cons_append, prefixFrom, if_neg ht, result_bind_of_ok hafter]
    exact ih after h

lemma leavesLast_binaryFrom (hs : tier.holds s = false) (t : Tree) :
    LeavesLast (.symbol p s f) (binaryFrom tier t) := by
  intro ts us h
  fun_induction binaryFrom tier t ts generalizing us with
  | case1 t =>
    obtain rfl : [t] = us := Except.ok.inj h
    simp [binaryFrom, hs]
  | case2 => exact absurd h result_complain_ne_ok
  | case3 t p' s' f' hs' right ts ih =>
    obtain ⟨⟨⟩, hleft, h⟩ := result_bind_eq_ok_iff.mp h
    obtain ⟨⟨⟩, hright, h⟩ := result_bind_eq_ok_iff.mp h
    rw [List.cons_append, List.cons_append, binaryFrom, if_pos hs', result_bind_of_ok hleft,
      result_bind_of_ok hright]
    exact ih h
  | case4 t p' s' f' ts hs' ih =>
    obtain ⟨vs, hvs, h⟩ := result_bind_eq_ok_iff.mp h
    obtain rfl : t :: vs = us := Except.ok.inj h
    rw [List.cons_append, binaryFrom_of_not_holds hs', result_bind_of_ok (ih hvs)]
    rfl
  | case5 t u ts hu ih =>
    have hsymbol := isSymbol_eq_false_of_ne hu
    obtain ⟨vs, hvs, h⟩ := result_bind_eq_ok_iff.mp h
    obtain rfl : t :: vs = us := Except.ok.inj h
    rw [List.cons_append, binaryFrom_of_not_isSymbol hsymbol, result_bind_of_ok (ih hvs)]
    rfl

lemma leavesLast_binarySweep (hs : tier.holds s = false) :
    LeavesLast (.symbol p s f) (binarySweep tier) := by
  intro ts us h
  cases ts with
  | nil =>
    obtain rfl : [] = us := Except.ok.inj h
    rfl
  | cons t ts => exact leavesLast_binaryFrom hs t h

lemma leavesLast_foldlM_binarySweep (hs : ∀ tier ∈ tiers, tier.holds s = false) :
    LeavesLast (.symbol p s f) fun ts => tiers.foldlM (fun ts tier => binarySweep tier ts) ts := by
  induction tiers with
  | nil =>
    intro ts us h
    obtain rfl : ts = us := Except.ok.inj h
    rfl
  | cons tier tiers ih =>
    obtain ⟨htier, htiers⟩ := List.forall_mem_cons.mp hs
    intro ts us h
    obtain ⟨vs, hvs, h⟩ := result_bind_eq_ok_iff.mp h
    exact result_bind_eq_ok_iff.mpr ⟨_, leavesLast_binarySweep htier hvs, ih htiers h⟩

/-- The sweep of its own tier blames a symbol that has nothing behind it. -/
lemma result_binaryFrom_append_of_holds (hs : tier.holds s = true)
    (h : (binaryFrom tier t ts).result = .ok us) :
    (binaryFrom tier t (ts ++ [.symbol p s f])).result =
      .error (.diagnostic (.of (.misplacedSymbol s) p)) := by
  fun_induction binaryFrom tier t ts generalizing us with
  | case1 t =>
    rw [List.nil_append, binaryFrom, if_pos hs]
    rfl
  | case2 => exact absurd h result_complain_ne_ok
  | case3 t p' s' f' hs' right ts ih =>
    obtain ⟨⟨⟩, hleft, h⟩ := result_bind_eq_ok_iff.mp h
    obtain ⟨⟨⟩, hright, h⟩ := result_bind_eq_ok_iff.mp h
    rw [List.cons_append, List.cons_append, binaryFrom, if_pos hs', result_bind_of_ok hleft,
      result_bind_of_ok hright]
    exact ih h
  | case4 t p' s' f' ts hs' ih =>
    obtain ⟨vs, hvs, -⟩ := result_bind_eq_ok_iff.mp h
    rw [List.cons_append, binaryFrom_of_not_holds hs', result_bind_of_error (ih hvs)]
  | case5 t u ts hu ih =>
    have hsymbol := isSymbol_eq_false_of_ne hu
    obtain ⟨vs, hvs, -⟩ := result_bind_eq_ok_iff.mp h
    rw [List.cons_append, binaryFrom_of_not_isSymbol hsymbol, result_bind_of_error (ih hvs)]

/-- Of the tiers the one that holds the symbol blames it. -/
lemma result_foldlM_binarySweep_append_of_holds (hmem : tier ∈ tiers) (hs : tier.holds s = true)
    (hne : ts ≠ [])
    (h : (tiers.foldlM (fun ts tier => binarySweep tier ts) ts).result = .ok us) :
    (tiers.foldlM (fun ts tier => binarySweep tier ts) (ts ++ [.symbol p s f])).result =
      .error (.diagnostic (.of (.misplacedSymbol s) p)) := by
  induction tiers generalizing ts with
  | nil => cases hmem
  | cons first tiers ih =>
    obtain ⟨vs, hvs, h⟩ := result_bind_eq_ok_iff.mp h
    rw [List.foldlM_cons]
    by_cases hfirst : first.holds s = true
    · obtain ⟨t, ts, rfl⟩ := List.exists_cons_of_ne_nil hne
      exact result_bind_of_error (result_binaryFrom_append_of_holds hfirst hvs) _
    · have hlast := leavesLast_binarySweep (p := p) (f := f) (by simpa using hfirst) hvs
      have htiers : tier ∈ tiers := by
        rcases List.mem_cons.mp hmem with rfl | htiers
        · exact absurd hs hfirst
        · exact htiers
      have hvs' : vs ≠ [] := by
        rintro rfl
        exact hne (rewrites_binarySweep hvs).of_nil
      rw [result_bind_of_ok hlast]
      exact ih htiers hvs' h

lemma assign_of_not_isAssignment (hs : Operator.isAssignment s = false) (t : Tree)
    (ts : List Tree) : assign t (.symbol p s f :: ts) = pure (t :: .symbol p s f :: ts) := by
  cases ts <;> simp [assign, hs]

lemma leavesLast_assignmentSweep (hs : Operator.isAssignment s = false) :
    LeavesLast (.symbol p s f) assignmentSweep := by
  intro ts us h
  induction ts generalizing us with
  | nil =>
    obtain rfl : [] = us := Except.ok.inj h
    rfl
  | cons t ts ih =>
    obtain ⟨vs, hvs, h⟩ := result_bind_eq_ok_iff.mp h
    rw [List.cons_append, assignmentSweep, result_bind_of_ok (ih hvs)]
    revert h
    fun_cases assign t vs with
    | case1 =>
      intro h
      exact absurd h result_complain_ne_ok
    | case2 p' s' f' hs' right vs =>
      intro h
      obtain ⟨⟨⟩, hleft, h⟩ := result_bind_eq_ok_iff.mp h
      obtain ⟨⟨⟩, hright, h⟩ := result_bind_eq_ok_iff.mp h
      obtain rfl : assignment s' t right :: vs = us := Except.ok.inj h
      rw [List.cons_append, List.cons_append, assign, if_pos hs', result_bind_of_ok hleft,
        result_bind_of_ok hright]
      rfl
    | case3 p' s' f' vs hs' =>
      intro h
      obtain rfl := Except.ok.inj h
      rw [List.cons_append, assign_of_not_isAssignment (by simpa using hs')]
      rfl
    | case4 vs hvs' =>
      intro h
      obtain rfl := Except.ok.inj h
      cases vs with
      | nil => exact congrArg result (assign_of_not_isAssignment hs t [])
      | cons v vs =>
        cases v with
        | symbol => exact absurd rfl (hvs' _ _ _ _)
        | _ => rfl

/-- An assignment behind a list is treated first, and it has nothing to assign. -/
lemma result_assignmentSweep_append (hs : Operator.isAssignment s = true) (hne : ts ≠ []) :
    (assignmentSweep (ts ++ [.symbol p s f])).result =
      .error (.diagnostic (.of (unassigned s) p)) := by
  induction ts with
  | nil => exact absurd rfl hne
  | cons t ts ih =>
    rw [List.cons_append, assignmentSweep]
    cases ts with
    | nil =>
      have hlast : (assignmentSweep ([] ++ [.symbol p s f])).result = .ok [.symbol p s f] := rfl
      rw [result_bind_of_ok hlast, assign, if_pos hs]
      rfl
    | cons u ts => exact result_bind_of_error (ih (List.cons_ne_nil u ts)) _

lemma result_checkConsumed_append (h : (checkConsumed ts).result = .ok ()) :
    (checkConsumed (ts ++ [.symbol p s f])).result =
      .error (.diagnostic (.of (.misplacedSymbol s) p)) := by
  have hunmarked := isSymbol_eq_false_of_result_checkConsumed h
  induction ts with
  | nil => rfl
  | cons t ts ih =>
    obtain ⟨ht, hts⟩ := List.forall_mem_cons.mp hunmarked
    cases t with
    | symbol => cases ht
    | _ => exact ih h hts

/-- Behind a list that is swept, a symbol that is no step of an operand is blamed: as lacking a
value if it is a compound assignment, and as misplaced otherwise. -/
lemma result_sweeps_append_symbol (hne : ts ≠ []) (hafter : Operator.isPostfix s f = false)
    (h : (sweeps ts).result = .ok us) :
    (sweeps (ts ++ [.symbol p s f])).result = .error (.diagnostic (.of (unassigned s) p)) := by
  obtain ⟨h, hconsumed⟩ := result_sweeps_iff.mp h
  obtain ⟨vs, hvs, h⟩ := result_bind_eq_ok_iff.mp h
  obtain ⟨ws, hws, h⟩ := result_bind_eq_ok_iff.mp h
  have hrewrites : Rewrites ts vs := (rewrites_postfixSweep ts).trans (rewrites_prefixFrom hvs)
  have hvs' : vs ≠ [] := fun hnil => hne (hnil ▸ hrewrites).of_nil
  have hlast := leavesLast_prefixFrom (l := .symbol p s f) rfl [] hvs
  rw [sweeps, postfixSweep_append_symbol hafter, prefixSweep, result_bind_of_ok hlast]
  by_cases hbinary : ∃ tier : Tier, tier.holds s = true
  · obtain ⟨tier, htier⟩ := hbinary
    rw [unassigned_of_not_isAssignment (Tier.not_isAssignment htier)]
    exact result_bind_of_error
      (result_foldlM_binarySweep_append_of_holds tier.mem_all htier hvs' hws) _
  have hws' : ws ≠ [] := fun hnil => hvs' (hnil ▸ rewrites_foldlM_binarySweep hws).of_nil
  have hlast : (binarySweeps (vs ++ [.symbol p s f])).result = .ok (ws ++ [.symbol p s f]) := by
    refine leavesLast_foldlM_binarySweep ?_ hws
    intro tier _
    simpa using fun htier => hbinary ⟨tier, htier⟩
  rw [result_bind_of_ok hlast]
  cases hassign : Operator.isAssignment s with
  | true => exact result_bind_of_error (result_assignmentSweep_append hassign hws') _
  | false =>
    rw [result_bind_of_ok (leavesLast_assignmentSweep hassign h),
      unassigned_of_not_isAssignment hassign]
    exact result_bind_of_error (result_checkConsumed_append hconsumed) _

/-! ### A symbol in front of a list -/

/-- In front of a list that is swept, a symbol that neither precedes nor follows a single operand
is left for the last check. -/
lemma result_sweeps_cons_symbol (hunary : Operator.isUnary s f = false)
    (h : (sweeps ts).result = .ok us) :
    (sweeps (.symbol p s f :: ts)).result =
      .error (.diagnostic (.of (.misplacedSymbol s) p)) := by
  have hfront := result_uncheckedSweeps_cons (l := .symbol p s f) rfl hunary h
  rw [sweeps_eq_uncheckedSweeps, result_bind_of_ok hfront]
  rfl

/-! ### Reduction -/

lemma checkKnown_cons_symbol (hs : Operator.isKnown s = true) (ts : List Tree) :
    checkKnown (.symbol p s f :: ts) = checkKnown ts := by
  rw [checkKnown, if_pos hs]

lemma checkKnown_append_symbol (hs : Operator.isKnown s = true) (ts : List Tree) :
    checkKnown (ts ++ [.symbol p s f]) = checkKnown ts := by
  induction ts with
  | nil => exact checkKnown_cons_symbol hs []
  | cons t ts ih =>
    cases t with
    | hole => rfl
    | symbol p' s' f' => rw [List.cons_append, checkKnown, checkKnown, ih]
    | _ => exact ih

/-- An operator without an operand is blamed itself, whatever list that can be reduced it stands
behind or in front of. A step may follow its operand and a sign may precede one. -/
theorem reduce_blames_dangling (hne : ts ≠ []) (h : (reduce d place ts).result = .ok t)
    (hs : Operator.isKnown s = true) (p q : Location) (f : Fixity) :
    (Operator.isPostfix s f = false →
      (reduce d q (ts ++ [.symbol p s f])).result =
        .error (.diagnostic (.of (if (Operator.compound? s).isSome then .missingValue s
          else .misplacedSymbol s) p))) ∧
    (Operator.isJoint s = true → Operator.isSign s = false →
      (reduce d q (.symbol p s f :: ts)).result =
        .error (.diagnostic (.of (.misplacedSymbol s) p))) := by
  obtain ⟨hknown, us, hus, -⟩ := result_reduce_iff.mp h
  constructor
  · intro hafter
    rw [reduce_eq_sweeps, checkKnown_append_symbol hs, result_bind_of_ok hknown]
    exact result_bind_of_error (result_sweeps_append_symbol hne hafter hus) _
  · intro hjoint hsign
    have hunary := Operator.isUnary_eq_false_of_isJoint (f := f) hjoint hsign
    rw [reduce_eq_sweeps, checkKnown_cons_symbol hs, result_bind_of_ok hknown]
    exact result_bind_of_error (result_sweeps_cons_symbol hunary hus) _

/-- Nothing is assigned in `k: msg -1 .=`, and nothing is multiplied in `* k: msg -1`. -/
theorem reduce_blames_dangling_behind_name :
    let place (column : Int) : Location := ⟨"f.ms", 1, column⟩
    let ts : List Tree := [.label (place 1) "k", .identifier (place 4) "msg",
      .symbol (place 8) "-" .before, .literal (place 9) (.int 1)]
    let t : Tree := .entry (place 1) (.label (place 1) "k")
      (.call (place 4) "msg" [.call (place 8) "neg" [.literal (place 9) (.int 1)]])
    ts ≠ [] ∧ (reduce ⟨.builtin, .list⟩ (place 1) ts).result = .ok t ∧
    Operator.isKnown ".=" = true ∧ Operator.isKnown "*" = true ∧
    (Operator.isPostfix ".=" .between = false ∧
      (reduce ⟨.builtin, .list⟩ (place 1) (ts ++ [.symbol (place 11) ".=" .between])).result =
        .error (.diagnostic (.of (.missingValue ".=") (place 11)))) ∧
    (Operator.isJoint "*" = true ∧ Operator.isSign "*" = false ∧
      (reduce ⟨.builtin, .list⟩ (place 1) (.symbol (place 0) "*" .between :: ts)).result =
        .error (.diagnostic (.of (.misplacedSymbol "*") (place 0)))) := by
  intro place ts t
  have hne : ts ≠ [] := by simp [ts]
  have hreduce : (reduce ⟨.builtin, .list⟩ (place 1) ts).result = .ok t := rfl
  have hassign : Operator.isKnown ".=" = true := by decide
  have htimes : Operator.isKnown "*" = true := by decide
  have hafter : Operator.isPostfix ".=" .between = false := by decide
  have hjoint : Operator.isJoint "*" = true := by decide
  have hsign : Operator.isSign "*" = false := by decide
  exact ⟨hne, hreduce, hassign, htimes,
    ⟨hafter, (reduce_blames_dangling hne hreduce hassign (place 11) (place 1) .between).1
      hafter⟩,
    hjoint, hsign,
    (reduce_blames_dangling hne hreduce htimes (place 0) (place 1) .between).2 hjoint hsign⟩

end Reduction

end LineScript
