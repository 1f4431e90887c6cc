import LineScript.Proofs.Reduction.Rewriting

/-!
# Reduction in place

The sweeps as they run over one list that shrinks under them: a sweep is at a position, looks at the
trees there by their positions, and puts a call in the place of those that it joins. Every look can
fail: the list may end before the position, the tree may have no spelling or no name, the symbol
no operation. No such failure is ever met, since reduction in place is reduction (`reduce_eq`).
-/

namespace LineScript

namespace Reduction.InPlace

open Traced

/-! ### Looks that can fail -/

/-- A list ends before the position that is looked at. -/
def noTree : Failure := .brokenInvariant "there is no tree at this position" none

/-- A tree is not of the kind whose parts are looked at. -/
def otherKind : Failure := .brokenInvariant "a tree of this kind has no such part" none

/-- Reduction would not end. -/
def noProgress : Failure := .brokenInvariant "the list did not become shorter" none

def treeAt (ts : List Tree) (i : Nat) : Traced Tree :=
  match ts[i]? with
  | some t => pure t
  | none => fail noTree

/-- The place, spelling and fixity of a symbol. -/
def symbolOf : Tree → Traced (Location × String × Fixity)
  | .symbol p s f => pure (p, s, f)
  | _ => fail otherKind

/-- The name of a function name. -/
def nameOf : Tree → Traced String
  | .identifier _ name => pure name
  | _ => fail otherKind

def operationOf (p : Location) (s : String) (f : Fixity) : Traced String :=
  match Operator.operation? s f with
  | some operation => pure operation
  | none => complain (.unknownSymbol s) p

def prefixOperationOf (p : Location) (s : String) (f : Fixity) : Traced String :=
  if Operator.isSign s then
    pure (if s = "-" then Operator.negation else Operator.identity)
  else operationOf p s f

/-- The operation that an assignment applies first, if it is a compound one. -/
def compoundOf (p : Location) (s : String) : Traced (Option String) :=
  if Operator.isAssignment s then pure (Operator.compound? s) else complain (.unknownSymbol s) p

/-- The list with one tree in the place of `n` trees from a position on. -/
def replaceAt (ts : List Tree) (i n : Nat) (t : Tree) : List Tree :=
  ts.take i ++ t :: ts.drop (i + n)

lemma length_replaceAt_lt {ts : List Tree} {i n : Nat} (hi : i + 1 < ts.length) (hn : 2 ≤ n)
    (t : Tree) : (replaceAt ts i n t).length < ts.length := by
  simp only [replaceAt, List.length_append, List.length_take, List.length_cons, List.length_drop]
  omega

/-! ### The sweeps -/

/-- The postfix sweep from the operand at a position on. -/
def postfixAt (ts : List Tree) (i : Nat) : Traced (List Tree) :=
  if _h : i + 1 < ts.length then do
    let operand ← treeAt ts i
    let node ← treeAt ts (i + 1)
    if node.isSymbol then
      let (p, s, f) ← symbolOf node
      if Operator.isPostfix s f && operand.isOperand then
        let operation ← operationOf p s f
        postfixAt (replaceAt ts i 2 (.call operand.place operation [operand])) i
      else postfixAt ts (i + 1)
    else postfixAt ts (i + 1)
  else pure ts
termination_by 2 * ts.length - i
decreasing_by
  · have := length_replaceAt_lt _h (Nat.le_refl 2) (.call operand.place operation [operand])
    omega
  · omega
  · omega

/-- The symbol at a position takes what follows it as its operand. -/
def isPrefixAt (ts : List Tree) (i : Nat) (s : String) (f : Fixity) : Traced Bool :=
  if Operator.isUnary s f then
    if Operator.isSign s && 0 < i then do return !(← treeAt ts (i - 1)).isOperand else pure true
  else pure false

/-- The prefix sweep from a position on. It steps back after every call that it makes, for a
symbol to the left that has its operand now. -/
def prefixAt (ts : List Tree) (i : Nat) : Traced (List Tree) :=
  if _h : i + 1 < ts.length then do
    let node ← treeAt ts i
    if node.isSymbol then
      let (p, s, f) ← symbolOf node
      let isPrefix ← isPrefixAt ts i s f
      let operand ← treeAt ts (i + 1)
      if isPrefix && !operand.isSymbol then
        let operation ← prefixOperationOf p s f
        checkOperand operand
        step (.unary s p)
        prefixAt (replaceAt ts i 2 (.call p operation [operand])) (i - 1)
      else prefixAt ts (i + 1)
    else prefixAt ts (i + 1)
  else pure ts
termination_by 2 * ts.length - i
decreasing_by
  · have := length_replaceAt_lt _h (Nat.le_refl 2) (.call p operation [operand])
    omega
  · omega
  · omega

/-- The complaint about a symbol with nothing behind it, which is the last tree of its list. -/
def dangling (ts : List Tree) : Traced (List Tree) := do
  let last ← treeAt ts (ts.length - 1)
  let (p, s, _) ← symbolOf last
  complain (.misplacedSymbol s) p

/-- The sweep of a binary tier from the left operand at a position on. -/
def binaryAt (tier : Tier) (ts : List Tree) (i : Nat) : Traced (List Tree) :=
  if _h : i + 1 < ts.length then do
    let node ← treeAt ts (i + 1)
    if node.isSymbol then
      let (p, s, f) ← symbolOf node
      if tier.holds s && !Operator.isAssignment s then
        if ts.length ≤ i + 2 then dangling ts
        else
          let left ← treeAt ts i
          let right ← treeAt ts (i + 2)
          checkOperand left
          checkOperand right
          let operation ← operationOf p s f
          step (.binary tier s p)
          binaryAt tier (replaceAt ts i 3 (.call left.place operation [left, right])) i
      else binaryAt tier ts (i + 1)
    else binaryAt tier ts (i + 1)
  else pure ts
termination_by 2 * ts.length - i
decreasing_by
  · have := length_replaceAt_lt _h (by decide : 2 ≤ 3) (.call left.place operation [left, right])
    omega
  · omega
  · omega

/-- Give the symbol behind a position the operands beside it if it is an assignment. -/
def assignAt (ts : List Tree) (i : Nat) : Traced (List Tree) := do
  let node ← treeAt ts (i + 1)
  if node.isSymbol then
    let (p, s, _) ← symbolOf node
    if Operator.isAssignment s then
      let compound ← compoundOf p s
      if ts.length ≤ i + 2 then
        if compound.isSome then complain (.missingValue s) p else dangling ts
      else
        let left ← treeAt ts i
        let right ← treeAt ts (i + 2)
        checkOperand left
        checkOperand right
        step (.assignment s p)
        let value :=
          match compound with
          | some operation => .call left.place operation [left, right]
          | none => right
        return replaceAt ts i 3 (.call left.place Operator.assign [left, value])
    else return ts
  else return ts

/-- The sweep of assignments over all positions before the given one, the last of them first. -/
def assignBefore (ts : List Tree) : Nat → Traced (List Tree)
  | 0 => pure ts
  | i + 1 => do assignBefore (← assignAt ts i) i

/-- All sweeps; those behind the first are made only if a symbol is left. -/
def sweep (ts : List Tree) : Traced (List Tree) := do
  let ts ← postfixAt ts 0
  if ts.any Tree.isSymbol then
    let ts ← prefixAt ts 0
    let ts ← Tier.all.foldlM (fun ts tier => binaryAt tier ts 0) ts
    let ts ← assignBefore ts (ts.length - 1)
    checkConsumed ts
    return ts
  else return ts

/-! ### What is left -/

def isIdentifier : Tree → Bool
  | .identifier .. => true
  | _ => false

/-- The call of a function by its bare name. -/
def implicitCall (registry : Registry) (p : Location) (name : String) (arguments : List Tree) :
    Traced Tree := do
  let first ← treeAt arguments 0
  let argument := if 1 < arguments.length then .join first.place .string arguments else first
  match registry.lookup name with
  | none => fail (.unresolvedCall name p)
  | some descriptor => do
    step (.implicitCall descriptor.name p)
    return .call p descriptor.name [argument]

/-- One tree for a list that has neither symbols nor a label in front. -/
def settle (d : Dialect) (place : Location) (ts : List Tree) : Traced Tree :=
  if ts.length = 1 then treeAt ts 0
  else
    match ts.findIdx? isIdentifier with
    | some 0 => do
      let identifier ← treeAt ts 0
      implicitCall d.registry identifier.place (← nameOf identifier) (ts.drop 1)
    | some (i + 1) => do
      let identifier ← treeAt ts (i + 1)
      complain (.misplacedIdentifier (← nameOf identifier)) identifier.place
    | none =>
      if ts.isEmpty then pure (.join place d.mode ts)
      else do return .join (← treeAt ts 0).place d.mode ts

/-- The tree of a list of siblings. What follows a label is reduced by itself. -/
def reduce (d : Dialect) (place : Location) (ts : List Tree) : Traced Tree := do
  checkKnown ts
  let swept ← sweep ts
  if swept.head?.any Tree.isLabel then
    let label ← treeAt swept 0
    if _h : (swept.drop 1).length < ts.length then
      return .entry label.place label (← reduce d label.place (swept.drop 1))
    else fail noProgress
  else settle d place swept
termination_by ts.length
decreasing_by exact _h

/-! ### Every look succeeds -/

variable {t u v : Tree} {l ts us before : List Tree} {p : Location} {s : String} {f : Fixity}
  {tier : Tier}

lemma treeAt_append (l : List Tree) (t : Tree) (ts : List Tree) :
    treeAt (l ++ t :: ts) l.length = pure t := by
  simp [treeAt]

lemma treeAt_append_succ (l : List Tree) (t u : Tree) (ts : List Tree) :
    treeAt (l ++ t :: u :: ts) (l.length + 1) = pure u := by
  simp [treeAt]

lemma treeAt_append_succ_succ (l : List Tree) (t u v : Tree) (ts : List Tree) :
    treeAt (l ++ t :: u :: v :: ts) (l.length + 2) = pure v := by
  simp [treeAt]

lemma replaceAt_append (l redex r : List Tree) (t : Tree) :
    replaceAt (l ++ (redex ++ r)) l.length redex.length t = l ++ t :: r := by
  simp [replaceAt, List.drop_append, List.drop_eq_nil_of_le]

lemma operationOf_eq (h : Operator.isKnown s = true) (p : Location) (f : Fixity) :
    operationOf p s f = pure (Operator.operation s f) := by
  have hall : ∀ s ∈ Operator.known, ∀ f ∈ [Fixity.before, .after, .between],
      (Operator.operation? s f).isSome = true := by decide
  have hsome := hall s (by simpa [Operator.isKnown] using h) f (by cases f <;> simp)
  obtain ⟨operation, hoperation⟩ := Option.isSome_iff_exists.mp hsome
  simp [operationOf, Operator.operation, hoperation]

lemma prefixOperationOf_eq (h : Operator.isUnary s f = true) (p : Location) :
    prefixOperationOf p s f = pure (Operator.prefixOperation s f) := by
  unfold prefixOperationOf
  split_ifs with hsign hminus
  · simp [Operator.prefixOperation, hminus]
  · obtain rfl : s = "+" := by simpa [Operator.isSign, hminus] using hsign
    rfl
  · rw [operationOf_eq (Operator.isKnown_of_isUnary h), Operator.prefixOperation, if_neg, if_neg]
    · rfl
    · rintro rfl
      exact hsign rfl
    · rintro rfl
      exact hsign rfl

lemma compoundOf_eq (h : Operator.isAssignment s = true) (p : Location) :
    compoundOf p s = pure (Operator.compound? s) :=
  if_pos h

/-! ### Steps behind an operand -/

/-- What was passed stays, and the rest is swept. -/
lemma postfixAt_eq (l : List Tree) (t : Tree) (ts : List Tree) :
    postfixAt (l ++ t :: ts) l.length = pure (l ++ postfixFrom t ts) := by
  fun_induction postfixFrom t ts generalizing l with
  | case1 t =>
    rw [postfixAt, dif_neg (by simp)]
  | case2 t p s f ts h ih =>
    have hknown := Operator.isKnown_of_isPostfix (Bool.and_eq_true _ _ |>.mp h).1
    have hcall := replaceAt_append l [t, .symbol p s f] ts
    rw [postfixAt, dif_pos (by simp)]
    simp only [treeAt_append, treeAt_append_succ, bind_of_pure, Tree.isSymbol, if_true, symbolOf, h,
      operationOf_eq hknown]
    exact (congrArg (postfixAt · l.length) (hcall _)).trans (ih l)
  | case3 t p s f ts h ih =>
    rw [postfixAt, dif_pos (by simp)]
    simp only [treeAt_append, treeAt_append_succ, bind_of_pure, Tree.isSymbol, if_true, symbolOf, h]
    simpa using ih (l ++ [t])
  | case4 t u ts hu ih =>
    have hsymbol : u.isSymbol = false := Tree.isSymbol_eq_false_of_ne hu
    rw [postfixAt, dif_pos (by simp)]
    simp only [treeAt_append, treeAt_append_succ, bind_of_pure, hsymbol]
    simpa using ih (l ++ [t])

lemma postfixAt_zero (ts : List Tree) : postfixAt ts 0 = pure (postfixSweep ts) := by
  cases ts with
  | nil => rw [postfixAt, dif_neg (by simp), postfixSweep]
  | cons t ts => exact postfixAt_eq [] t ts

/-! ### Prefix symbols -/

lemma reverse_cons_append (t : Tree) (before ts : List Tree) :
    (t :: before).reverse ++ ts = before.reverse ++ t :: ts := by
  simp

lemma isPrefixAt_append (before ts : List Tree) (s : String) (f : Fixity) :
    isPrefixAt (before.reverse ++ ts) before.length s f = pure (isPrefixAfter before s f) := by
  unfold isPrefixAt isPrefixAfter
  cases before with
  | nil => cases Operator.isUnary s f <;> simp
  | cons t before =>
    have hlook : treeAt ((t :: before).reverse ++ ts) before.length = pure t := by
      simpa using treeAt_append before.reverse t ts
    rw [List.length_cons, Nat.add_sub_cancel, hlook]
    cases Operator.isUnary s f <;> cases Operator.isSign s <;> rfl

section

variable (before ts t u)

lemma treeAt_reverse_append :
    treeAt (before.reverse ++ t :: u :: ts) before.length = pure t := by
  simpa using treeAt_append before.reverse t (u :: ts)

lemma treeAt_reverse_append_succ :
    treeAt (before.reverse ++ t :: u :: ts) (before.length + 1) = pure u := by
  simpa using treeAt_append_succ before.reverse t u ts

end

lemma prefixAt_of_isPrefixAfter (h : isPrefixAfter before s f = true) (hu : u.isSymbol = false)
    (p : Location) (ts : List Tree) :
    prefixAt (before.reverse ++ .symbol p s f :: u :: ts) before.length =
      checkOperand u >>= fun _ => step (.unary s p) >>= fun _ =>
        prefixAt (before.reverse ++ .call p (Operator.prefixOperation s f) [u] :: ts)
          (before.length - 1) := by
  have hunary : Operator.isUnary s f = true := (Bool.and_eq_true _ _ |>.mp h).1
  have hcall : ∀ v, replaceAt (before.reverse ++ .symbol p s f :: u :: ts) before.length 2 v =
      before.reverse ++ v :: ts := fun v => by
    simpa using replaceAt_append before.reverse [.symbol p s f, u] ts v
  rw [prefixAt, dif_pos (by simp)]
  simp only [treeAt_reverse_append, treeAt_reverse_append_succ, bind_of_pure, symbolOf,
    isPrefixAt_append, prefixOperationOf_eq hunary, h, hu, hcall]
  rfl

/-- Where the tree to the left of `u` does not take it, the sweep passes `u`. -/
lemma prefixAt_passes (h : ∀ p s f rest, before = .symbol p s f :: rest →
      (isPrefixAfter rest s f && !u.isSymbol) = false) (ts : List Tree) :
    prefixAt (before.reverse ++ u :: ts) (before.length - 1) =
      prefixAt ((u :: before).reverse ++ ts) before.length := by
  rw [reverse_cons_append u]
  cases before with
  | nil => rfl
  | cons t before =>
    rw [reverse_cons_append, List.length_cons, Nat.add_sub_cancel, prefixAt, dif_pos (by simp),
      treeAt_reverse_append, bind_of_pure]
    cases t with
    | symbol p s f =>
      simp only [symbolOf, treeAt_reverse_append_succ, bind_of_pure, isPrefixAt_append,
        h p s f before rfl]
      rfl
    | _ => rfl

/-- A tree that is no symbol is absorbed where the sweep goes back step by step. -/
lemma prefixAt_eq_absorb (before : List Tree) (ht : t.isSymbol = false) (ts : List Tree) :
    prefixAt (before.reverse ++ t :: ts) (before.length - 1) =
      absorb t before >>= fun after => prefixAt (after.reverse ++ ts) (after.length - 1) := by
  fun_induction absorb t before with
  | case1 t p s f before h ih =>
    rw [reverse_cons_append, List.length_cons, Nat.add_sub_cancel, prefixAt_of_isPrefixAfter h ht]
    simp only [bind_bind, ih rfl]
  | case2 t p s f before h =>
    refine prefixAt_passes ?_ ts
    rintro p s f before ⟨⟩
    simp [h]
  | case3 t before hbefore =>
    exact prefixAt_passes (fun p s f rest heq => absurd heq (hbefore p s f rest)) ts

lemma prefixAt_eq (before ts : List Tree) :
    prefixAt (before.reverse ++ ts) (before.length - 1) = prefixFrom before ts := by
  fun_induction prefixFrom before ts with
  | case1 before => rw [prefixAt, dif_neg (by simp; omega), List.append_nil]
  | case2 before t ts ht ih =>
    rw [← ih]
    exact prefixAt_passes (fun _ _ _ _ _ => by simp [ht]) ts
  | case3 before t ts ht ih =>
    rw [prefixAt_eq_absorb before (by simpa using ht)]
    exact bind_congr_of_ok fun after _ => ih after

lemma prefixAt_zero (ts : List Tree) : prefixAt ts 0 = prefixSweep ts :=
  prefixAt_eq [] ts

/-! ### Binary symbols -/

/-- The symbol at the end of a list is blamed for what is missing behind it. -/
lemma dangling_append (l : List Tree) (t : Tree) (p : Location) (s : String) (f : Fixity) :
    dangling (l ++ [t, .symbol p s f]) = complain (.misplacedSymbol s) p := by
  have hlast : treeAt (l ++ [t, .symbol p s f]) ((l ++ [t, .symbol p s f]).length - 1) =
      pure (.symbol p s f) := by
    simpa using treeAt_append_succ l t (.symbol p s f) []
  rw [dangling, hlast]
  rfl

/-- A sweep that has passed `t` goes on behind it. -/
lemma bind_append_cons (x : Traced (List Tree)) (l : List Tree) (t : Tree) :
    (x >>= fun us => pure ((l ++ [t]) ++ us)) =
      (x >>= fun us => pure (t :: us)) >>= fun us => pure (l ++ us) := by
  simp only [bind_bind, bind_of_pure, List.append_assoc, List.singleton_append]

lemma binaryAt_eq (tier : Tier) (l : List Tree) (t : Tree) (ts : List Tree) :
    binaryAt tier (l ++ t :: ts) l.length =
      binaryFrom tier t ts >>= fun us => pure (l ++ us) := by
  fun_induction binaryFrom tier t ts generalizing l with
  | case1 t => rw [binaryAt, dif_neg (by simp), bind_of_pure]
  | case2 t p s f hs =>
    rw [binaryAt, dif_pos (by simp)]
    simp [treeAt_append_succ, bind_of_pure, Tree.isSymbol, symbolOf, hs, Tier.not_isAssignment hs,
      dangling_append]
    rfl
  | case3 t p s f hs u ts ih =>
    have hknown := Operator.isKnown_of_isJoint (Operator.isJoint_of_holds hs)
    have hcall : ∀ v, replaceAt (l ++ t :: .symbol p s f :: u :: ts) l.length 3 v = l ++ v :: ts :=
      replaceAt_append l [t, .symbol p s f, u] ts
    have hlength : ¬(l ++ t :: .symbol p s f :: u :: ts).length ≤ l.length + 2 := by simp
    rw [binaryAt, dif_pos (by simp)]
    simp only [treeAt_append, treeAt_append_succ, treeAt_append_succ_succ, bind_of_pure,
      Tree.isSymbol, symbolOf, hs, Tier.not_isAssignment hs, hlength, operationOf_eq hknown, hcall,
      ih, bind_bind]
    rfl
  | case4 t p s f ts hs ih =>
    rw [binaryAt, dif_pos (by simp)]
    simp only [treeAt_append_succ, bind_of_pure, Tree.isSymbol, symbolOf, hs]
    rw [← bind_append_cons, ← ih]
    simp
  | case5 t u ts hu ih =>
    have hsymbol : u.isSymbol = false := Tree.isSymbol_eq_false_of_ne hu
    rw [binaryAt, dif_pos (by simp)]
    simp only [treeAt_append_succ, bind_of_pure, hsymbol]
    rw [← bind_append_cons, ← ih]
    simp

lemma binaryAt_zero (tier : Tier) (ts : List Tree) : binaryAt tier ts 0 = binarySweep tier ts := by
  cases ts with
  | nil => rw [binaryAt, dif_neg (by simp), binarySweep]
  | cons t ts => exact (binaryAt_eq tier [] t ts).trans (bind_pure_eq _)

/-! ### Assignments -/

lemma assignAt_append (l : List Tree) (t u : Tree) (ts : List Tree) :
    assignAt (l ++ t :: u :: ts) l.length = assign t (u :: ts) >>= fun us => pure (l ++ us) := by
  rw [assignAt, treeAt_append_succ, bind_of_pure]
  cases u with
  | symbol p s f =>
    simp only [Tree.isSymbol, if_true, symbolOf, bind_of_pure, assign]
    cases hs : Operator.isAssignment s with
    | false => simp [bind_of_pure]
    | true =>
      simp only [if_true, compoundOf_eq hs, bind_of_pure]
      cases ts with
      | nil =>
        have hlength : (l ++ [t, .symbol p s f]).length ≤ l.length + 2 := by simp
        simp only [hlength, if_true, dangling_append, unassigned]
        cases Operator.compound? s <;> rfl
      | cons v ts =>
        have hcall : ∀ w, replaceAt (l ++ t :: .symbol p s f :: v :: ts) l.length 3 w =
          l ++ w :: ts := replaceAt_append l [t, .symbol p s f, v] ts
        have hlength : ¬(l ++ t :: .symbol p s f :: v :: ts).length ≤ l.length + 2 := by simp
        simp only [hlength, treeAt_append, treeAt_append_succ_succ, bind_of_pure, bind_bind, hcall]
        rfl
  | _ => rfl

lemma assign_ne_nil (h : (assign t ts).result = .ok us) : us ≠ [] := by
  revert h
  fun_cases assign t ts with
  | case1 => exact fun h => absurd h result_complain_ne_ok
  | case2 p s f hs v ts =>
    intro h
    obtain ⟨⟨⟩, -, h⟩ := result_bind_eq_ok_iff.mp h
    obtain ⟨⟨⟩, -, h⟩ := result_bind_eq_ok_iff.mp h
    obtain ⟨⟨⟩, -, h⟩ := result_bind_eq_ok_iff.mp h
    obtain rfl := Except.ok.inj h
    exact List.cons_ne_nil _ _
  | case3 | case4 =>
    rintro ⟨⟩
    exact List.cons_ne_nil _ _

/-- The sweep over the last trees of a list comes before the sweep over all others. -/
lemma assignmentSweep_append (before ts : List Tree) :
    assignmentSweep (before.reverse ++ ts) =
      assignmentSweep ts >>= fun us => before.foldlM (fun us t => assign t us) us := by
  induction before generalizing ts with
  | nil => exact (bind_pure_eq _).symm
  | cons t before ih =>
    rw [reverse_cons_append, ih, assignmentSweep, bind_bind]
    rfl

lemma assignBefore_eq (before : List Tree) (hus : us ≠ []) :
    assignBefore (before.reverse ++ us) before.length =
      before.foldlM (fun us t => assign t us) us := by
  induction before generalizing us with
  | nil => rfl
  | cons t before ih =>
    obtain ⟨u, us, rfl⟩ := List.exists_cons_of_ne_nil hus
    have hat := assignAt_append before.reverse t u us
    rw [List.length_reverse] at hat
    rw [reverse_cons_append, List.length_cons, assignBefore, hat, List.foldlM_cons, bind_bind]
    exact bind_congr_of_ok fun vs hvs => ih (assign_ne_nil hvs)

lemma assignBefore_last (ts : List Tree) :
    assignBefore ts (ts.length - 1) = assignmentSweep ts := by
  rcases List.eq_nil_or_concat ts with rfl | ⟨ts, t, rfl⟩
  · rfl
  · have heq := assignBefore_eq ts.reverse (List.cons_ne_nil t [])
    have hsweep := assignmentSweep_append ts.reverse [t]
    rw [List.reverse_reverse] at heq hsweep
    rw [List.concat_eq_append, hsweep, List.length_append, List.length_singleton,
      Nat.add_sub_cancel, ← List.length_reverse, heq]
    rfl

/-! ### All sweeps -/

lemma sweep_eq (ts : List Tree) : sweep ts = sweeps ts := by
  have htiers : (fun ts tier => binaryAt tier ts 0) = fun ts tier => binarySweep tier ts :=
    funext fun ts => funext fun tier => binaryAt_zero tier ts
  rw [sweep, postfixAt_zero, bind_of_pure]
  split_ifs with hany
  · simp only [prefixAt_zero, htiers, assignBefore_last, sweeps]
    rfl
  · -- the other sweeps would leave a list without symbols as it is
    have hunmarked : IsUnmarked (postfixSweep ts) := fun t ht => by
      simpa using List.any_eq_false.mp (Bool.eq_false_iff.mpr hany) t ht
    have hpostfix := postfixSweep_of_isUnmarked hunmarked
    have hsweeps := sweeps_of_isUnmarked hunmarked
    rwa [sweeps, hpostfix, eq_comm] at hsweeps

/-! ### What is left -/

lemma implicitCall_eq (registry : Registry) (p : Location) (name : String) (t : Tree)
    (ts : List Tree) : implicitCall registry p name (t :: ts) =
      Reduction.implicitCall registry p name (t :: ts) := by
  cases ts <;> rfl

lemma findIdx?_append_identifier (hl : ∀ t ∈ l, isIdentifier t = false) (p : Location)
    (name : String) (ts : List Tree) :
    (l ++ .identifier p name :: ts).findIdx? isIdentifier = some l.length := by
  have hnone : l.findIdx? isIdentifier = none := List.findIdx?_eq_none_iff.mpr hl
  simp [List.findIdx?_append, hnone, List.findIdx?_cons, isIdentifier]

lemma joined_append_identifier (hl : ∀ t ∈ l, isIdentifier t = false) (mode : JoinMode)
    (place p : Location) (name : String) (ts : List Tree) :
    joined mode place (l ++ .identifier p name :: ts) = complain (.misplacedIdentifier name) p := by
  unfold joined
  rw [List.findSome?_append, List.findSome?_eq_none_iff.mpr]
  · rfl
  · intro t ht
    cases t <;> first | rfl | cases hl _ ht

lemma joined_of_not_isIdentifier (hts : ∀ t ∈ ts, isIdentifier t = false) (mode : JoinMode)
    (place : Location) :
    joined mode place ts = pure (.join ((ts.head?.map Tree.place).getD place) mode ts) := by
  unfold joined
  rw [List.findSome?_eq_none_iff.mpr]
  intro t ht
  cases t <;> first | rfl | cases hts _ ht

lemma settle_eq (d : Dialect) (place : Location) (h : ∀ t ∈ ts.head?, t.isLabel = false) :
    settle d place ts = Reduction.settle d place ts := by
  fun_cases Reduction.settle d place ts with
  | case1 => cases h _ rfl
  | case2 t => rfl
  | case3 p name ts hts =>
    obtain ⟨t, ts, rfl⟩ := List.exists_cons_of_ne_nil hts
    rw [settle, if_neg (by simp)]
    exact implicitCall_eq d.registry p name t ts
  | case4 _ _ hsingle hidentifier =>
    have hlength : ts.length ≠ 1 := fun hlength => by
      obtain ⟨t, rfl⟩ := List.length_eq_one_iff.mp hlength
      exact hsingle t rfl
    rw [settle, if_neg hlength]
    cases hfind : ts.find? isIdentifier with
    | none =>
      have hts : ∀ t ∈ ts, isIdentifier t = false := by simpa using hfind
      rw [List.findIdx?_eq_none_iff.mpr hts, joined_of_not_isIdentifier hts]
      cases ts <;> rfl
    | some t =>
      obtain ⟨ht, l, r, rfl, hl⟩ := List.find?_eq_some_iff_append.mp hfind
      obtain ⟨p, name, rfl⟩ : ∃ p name, t = .identifier p name := by
        cases t <;> first | exact ⟨_, _, rfl⟩ | cases ht
      have hl : ∀ t ∈ l, isIdentifier t = false := by simpa using hl
      rw [findIdx?_append_identifier hl, joined_append_identifier hl]
      cases l with
      | nil => exact absurd rfl (hidentifier p name r)
      | cons t l =>
        rw [List.length_cons]
        dsimp only
        rw [← List.length_cons, treeAt_append]
        rfl

/-! ### The whole reduction -/

/-- Reduction in place is reduction: no look of it fails. -/
theorem reduce_eq (d : Dialect) (place : Location) (ts : List Tree) :
    reduce d place ts = Reduction.reduce d place ts := by
  induction hlength : ts.length using Nat.strongRecOn generalizing place ts with
  | ind n ih =>
    subst hlength
    rw [reduce, reduce_eq_sweeps, sweep_eq]
    refine bind_congr_of_ok fun _ hknown => bind_congr_of_ok fun us hus => ?_
    obtain ⟨hrewrites, hunmarked⟩ := rewrites_sweeps hus
    have hhole := ne_hole_of_rewrites hrewrites fun t ht =>
      (ne_hole_of_result_checkKnown hknown t ht).1
    cases us with
    | nil => rfl
    | cons t us =>
      cases ht : t.isLabel with
      | false =>
        simp only [List.head?_cons, Option.any_some, ht]
        exact settle_eq d place (by simpa using ht)
      | true =>
        obtain ⟨p, name, rfl⟩ : ∃ p name, t = .label p name := by
          cases t <;> first | exact ⟨_, _, rfl⟩ | cases ht
        -- what follows the label has no symbols, so it is only settled
        have hlt : us.length < ts.length := hrewrites.length_le
        have hvalue := (ih us.length hlt p us rfl).trans (reduce_of_isUnmarked d p
          (isUnmarked_cons_iff.mp hunmarked).2 (List.forall_mem_cons.mp hhole).2)
        have hlook : treeAt (.label p name :: us) 0 = pure (.label p name) := rfl
        simp only [List.head?_cons, Option.any_some, Tree.isLabel, if_true, hlook, bind_of_pure,
          List.drop_one, List.tail_cons, hlt, dif_pos, Tree.place, hvalue]
        rfl

end Reduction.InPlace

end LineScript
