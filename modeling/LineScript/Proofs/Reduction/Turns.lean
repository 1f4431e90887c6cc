import LineScript.Proofs.Reduction.InPlace

/-!
# The sweeps turn by turn

A sweep in place is a loop. One turn looks at the trees at a position, may put a call in the place
of some of them, and says at which position the next turn is, which can be further to the left.
Every turn either shortens the list or goes on in the direction of the sweep, so that a loop over a
list is over within a number of turns that is told by its length alone, and then it has done what
the sweep does (`turns_eq_run`).
-/

namespace LineScript

namespace Reduction

open Traced

/-! ### The sweeps of reduction -/

/-- The sweeps that find operands for symbols, one for each tier. -/
inductive Sweep where
  /-- Steps behind their operand. -/
  | behind
  /-- Prefix symbols. -/
  | before
  | binary (tier : Tier)
  | assignment

/-- What a sweep makes of a list. -/
def Sweep.run : Sweep → List Tree → Traced (List Tree)
  | .behind, ts => pure (postfixSweep ts)
  | .before, ts => prefixSweep ts
  | .binary tier, ts => binarySweep tier ts
  | .assignment, ts => assignmentSweep ts

namespace InPlace

/-! ### One turn -/

/-- The list behind a turn and the position of the next turn, or nothing where the loop ends. -/
abbrev Turn := Traced (Option (List Tree × ℕ))

/-- Go on at a position. -/
def goOn (ts : List Tree) (i : ℕ) : Turn := pure (some (ts, i))

/-- Leave the loop. -/
def leave : Turn := pure none

def postfixTurn (ts : List Tree) (i : ℕ) : Turn :=
  if i + 1 < ts.length then do
    let operand ← treeAt ts i
    let node ← treeAt ts (i + 1)
    if node.isSymbol then
      let (p, s, f) ← symbolOf node
      if Operator.isPostfix s f && operand.isOperand then
        let operation ← operationOf p s f
        goOn (replaceAt ts i 2 (.call operand.place operation [operand])) i
      else goOn ts (i + 1)
    else goOn ts (i + 1)
  else leave

def prefixTurn (ts : List Tree) (i : ℕ) : Turn :=
  if i + 1 < ts.length then do
    let node ← treeAt ts i
    if node.isSymbol then
      let (p, s, f) ← symbolOf node
      let isPrefix ← isPrefixAt ts i s f
      let operand ← treeAt ts (i + 1)
      if isPrefix && !operand.isSymbol then
        let operation ← prefixOperationOf p s f
        checkOperand operand
        step (.unary s p)
        goOn (replaceAt ts i 2 (.call p operation [operand])) (i - 1)
      else goOn ts (i + 1)
    else goOn ts (i + 1)
  else leave

def binaryTurn (tier : Tier) (ts : List Tree) (i : ℕ) : Turn :=
  if i + 1 < ts.length then do
    let node ← treeAt ts (i + 1)
    if node.isSymbol then
      let (p, s, f) ← symbolOf node
      if tier.holds s && !Operator.isAssignment s then
        if ts.length ≤ i + 2 then dangling ts >>= fun us => goOn us i
        else
          let left ← treeAt ts i
          let right ← treeAt ts (i + 2)
          checkOperand left
          checkOperand right
          let operation ← operationOf p s f
          step (.binary tier s p)
          goOn (replaceAt ts i 3 (.call left.place operation [left, right])) i
      else goOn ts (i + 1)
    else goOn ts (i + 1)
  else leave

/-- The turn of the sweep that runs to the left; the positions before the given one are left. -/
def assignTurn (ts : List Tree) : ℕ → Turn
  | 0 => leave
  | i + 1 => assignAt ts i >>= fun us => goOn us i

/-! ### Loops -/

/-- What a loop comes to in a number of turns: the list that it leaves, or nothing if it is not over
by then. -/
def turns (turn : List Tree → ℕ → Turn) : ℕ → List Tree → ℕ → Traced (Option (List Tree))
  | 0, _, _ => pure none
  | n + 1, ts, i => turn ts i >>= fun next =>
    match next with
    | none => pure (some ts)
    | some (us, j) => turns turn n us j

/-- A function is what a loop does: it makes a turn and then it does the rest. -/
def Unrolls (loop : List Tree → ℕ → Traced (List Tree)) (turn : List Tree → ℕ → Turn) : Prop :=
  ∀ ts i, loop ts i = turn ts i >>= fun next =>
    match next with
    | none => pure ts
    | some (us, j) => loop us j

/-- Every turn lowers a measure of the list and the position. -/
def Lowers (turn : List Tree → ℕ → Turn) (measure : List Tree → ℕ → ℕ) : Prop :=
  ∀ ts i us j, (turn ts i).result = .ok (some (us, j)) → measure us j < measure ts i

/-- A loop whose turns lower a measure is over within as many turns, whatever it comes to. -/
theorem turns_eq {loop : List Tree → ℕ → Traced (List Tree)} {turn : List Tree → ℕ → Turn}
    {measure : List Tree → ℕ → ℕ} (hloop : Unrolls loop turn) (hlower : Lowers turn measure)
    {n : ℕ} {ts : List Tree} {i : ℕ} (hn : measure ts i < n) :
    turns turn n ts i = loop ts i >>= fun us => pure (some us) := by
  induction n generalizing ts i with
  | zero => exact absurd hn (Nat.not_lt_zero _)
  | succ n ih =>
    rw [turns, hloop, bind_bind]
    refine bind_congr_of_ok fun next hnext => ?_
    match next with
    | none => rfl
    | some (us, j) =>
      have hless := hlower ts i us j hnext
      exact ih (by omega)

/-! ### The sweeps are loops -/

lemma unrolls_postfixAt : Unrolls postfixAt postfixTurn := by
  intro ts i
  rw [postfixAt, postfixTurn]
  split_ifs with hi
  · simp only [bind_bind]
    refine bind_congr_of_ok fun operand _ => bind_congr_of_ok fun node _ => ?_
    split_ifs with hnode
    · simp only [bind_bind]
      refine bind_congr_of_ok fun symbol _ => ?_
      split_ifs
      · simp only [bind_bind]
        rfl
      · rfl
    · rfl
  · rfl

lemma unrolls_prefixAt : Unrolls prefixAt prefixTurn := by
  intro ts i
  rw [prefixAt, prefixTurn]
  split_ifs with hi
  · simp only [bind_bind]
    refine bind_congr_of_ok fun node _ => ?_
    split_ifs with hnode
    · simp only [bind_bind]
      refine bind_congr_of_ok fun symbol _ => bind_congr_of_ok fun isPrefix _ =>
        bind_congr_of_ok fun operand _ => ?_
      split_ifs
      · simp only [bind_bind]
        rfl
      · rfl
    · rfl
  · rfl

lemma result_dangling_ne_ok {ts us : List Tree} : (dangling ts).result ≠ .ok us := by
  intro h
  obtain ⟨last, -, h⟩ := result_bind_eq_ok_iff.mp h
  obtain ⟨symbol, -, h⟩ := result_bind_eq_ok_iff.mp h
  exact result_complain_ne_ok h

/-- Nothing comes behind a dangling symbol. -/
lemma dangling_bind (ts : List Tree) (f : List Tree → Traced (List Tree)) :
    dangling ts >>= f = dangling ts :=
  (bind_congr_of_ok fun _ h => absurd h result_dangling_ne_ok).trans (bind_pure_eq _)

lemma unrolls_binaryAt (tier : Tier) : Unrolls (binaryAt tier) (binaryTurn tier) := by
  intro ts i
  rw [binaryAt, binaryTurn]
  by_cases hi : i + 1 < ts.length
  · rw [dif_pos hi, if_pos hi, bind_bind]
    refine bind_congr_of_ok fun node _ => ?_
    by_cases hnode : node.isSymbol = true
    · rw [if_pos hnode, if_pos hnode, bind_bind]
      refine bind_congr_of_ok fun symbol _ => ?_
      obtain ⟨p, s, f⟩ := symbol
      dsimp only
      by_cases hjoint : (tier.holds s && !Operator.isAssignment s) = true
      · rw [if_pos hjoint, if_pos hjoint]
        by_cases hlast : ts.length ≤ i + 2
        · rw [if_pos hlast, if_pos hlast, bind_bind]
          exact (dangling_bind ts _).symm
        · rw [if_neg hlast, if_neg hlast]
          simp only [bind_bind]
          rfl
      · rw [if_neg hjoint, if_neg hjoint]
        rfl
    · rw [if_neg hnode, if_neg hnode]
      rfl
  · rw [dif_neg hi, if_neg hi]
    rfl

lemma unrolls_assignBefore : Unrolls assignBefore assignTurn := by
  intro ts i
  cases i with
  | zero => rfl
  | succ i =>
    rw [assignBefore, assignTurn, bind_bind]
    rfl

/-! ### The loops end -/

/-- What a sweep to the right has before it: the trees behind its position, and once more all trees,
because a call puts it back by at most one position and takes at least one tree away. -/
def distance (ts : List Tree) (i : ℕ) : ℕ := 2 * ts.length - i

variable {ts us : List Tree} {i j k : ℕ}

lemma eq_of_goOn (h : (goOn ts i).result = .ok (some (us, j))) : us = ts ∧ j = i := by
  obtain ⟨⟩ := Except.ok.inj h
  exact ⟨rfl, rfl⟩

/-- A turn that only goes on comes nearer to the end. -/
lemma distance_lt_of_goOn (hi : i + 1 < ts.length)
    (h : (goOn ts (i + 1)).result = .ok (some (us, j))) : distance us j < distance ts i := by
  obtain ⟨rfl, rfl⟩ := eq_of_goOn h
  unfold distance
  omega

/-- A turn that makes a call comes nearer to the end even if it steps back. -/
lemma distance_lt_of_replaceAt {n : ℕ} {t : Tree} (hi : i + 1 < ts.length) (hn : 2 ≤ n)
    (hj : i ≤ j + 1) (h : (goOn (replaceAt ts i n t) j).result = .ok (some (us, k))) :
    distance us k < distance ts i := by
  obtain ⟨rfl, rfl⟩ := eq_of_goOn h
  have hlength := length_replaceAt_lt hi hn t
  unfold distance
  omega

lemma lowers_postfixTurn : Lowers postfixTurn distance := by
  intro ts i us j h
  unfold postfixTurn at h
  split at h
  · next hi =>
    obtain ⟨operand, -, h⟩ := result_bind_eq_ok_iff.mp h
    obtain ⟨node, -, h⟩ := result_bind_eq_ok_iff.mp h
    split at h
    · obtain ⟨⟨p, s, f⟩, -, h⟩ := result_bind_eq_ok_iff.mp h
      dsimp only at h
      split at h
      · obtain ⟨operation, -, h⟩ := result_bind_eq_ok_iff.mp h
        exact distance_lt_of_replaceAt hi (Nat.le_refl 2) (Nat.le_succ i) h
      · exact distance_lt_of_goOn hi h
    · exact distance_lt_of_goOn hi h
  · cases h

lemma lowers_prefixTurn : Lowers prefixTurn distance := by
  intro ts i us j h
  unfold prefixTurn at h
  split at h
  · next hi =>
    obtain ⟨node, -, h⟩ := result_bind_eq_ok_iff.mp h
    split at h
    · obtain ⟨⟨p, s, f⟩, -, h⟩ := result_bind_eq_ok_iff.mp h
      obtain ⟨isPrefix, -, h⟩ := result_bind_eq_ok_iff.mp h
      obtain ⟨operand, -, h⟩ := result_bind_eq_ok_iff.mp h
      split at h
      · obtain ⟨operation, -, h⟩ := result_bind_eq_ok_iff.mp h
        obtain ⟨⟨⟩, -, h⟩ := result_bind_eq_ok_iff.mp h
        obtain ⟨⟨⟩, -, h⟩ := result_bind_eq_ok_iff.mp h
        exact distance_lt_of_replaceAt hi (Nat.le_refl 2) (by omega) h
      · exact distance_lt_of_goOn hi h
    · exact distance_lt_of_goOn hi h
  · cases h

lemma lowers_binaryTurn (tier : Tier) : Lowers (binaryTurn tier) distance := by
  intro ts i us j h
  unfold binaryTurn at h
  split at h
  · next hi =>
    obtain ⟨node, -, h⟩ := result_bind_eq_ok_iff.mp h
    split at h
    · obtain ⟨⟨p, s, f⟩, -, h⟩ := result_bind_eq_ok_iff.mp h
      dsimp only at h
      split at h
      · split at h
        · obtain ⟨vs, hvs, -⟩ := result_bind_eq_ok_iff.mp h
          exact absurd hvs result_dangling_ne_ok
        · obtain ⟨left, -, h⟩ := result_bind_eq_ok_iff.mp h
          obtain ⟨right, -, h⟩ := result_bind_eq_ok_iff.mp h
          obtain ⟨⟨⟩, -, h⟩ := result_bind_eq_ok_iff.mp h
          obtain ⟨⟨⟩, -, h⟩ := result_bind_eq_ok_iff.mp h
          obtain ⟨operation, -, h⟩ := result_bind_eq_ok_iff.mp h
          obtain ⟨⟨⟩, -, h⟩ := result_bind_eq_ok_iff.mp h
          exact distance_lt_of_replaceAt hi (by decide) (Nat.le_succ i) h
      · exact distance_lt_of_goOn hi h
    · exact distance_lt_of_goOn hi h
  · cases h

lemma lowers_assignTurn : Lowers assignTurn fun _ left => left := by
  intro ts left us j h
  cases left with
  | zero => cases h
  | succ i =>
    obtain ⟨vs, -, h⟩ := result_bind_eq_ok_iff.mp h
    obtain ⟨rfl, rfl⟩ := eq_of_goOn h
    exact Nat.lt_succ_self j

end InPlace

/-! ### All sweeps -/

open InPlace

/-- The turn of a sweep. -/
def Sweep.turn : Sweep → List Tree → ℕ → Turn
  | .behind => postfixTurn
  | .before => prefixTurn
  | .binary tier => binaryTurn tier
  | .assignment => assignTurn

/-- Where a sweep begins: the assignments at the end of the list, all others in front. -/
def Sweep.start : Sweep → List Tree → ℕ
  | .assignment, ts => ts.length - 1
  | _, _ => 0

/-- Every sweep is over within twice as many turns as there are trees and one more, and then it has
come to its result or its failure. -/
theorem turns_eq_run (sweep : Sweep) {ts : List Tree} {n : ℕ} (hn : 2 * ts.length < n) :
    turns sweep.turn n ts (sweep.start ts) = sweep.run ts >>= fun us => pure (some us) := by
  cases sweep with
  | behind =>
    have hdistance : distance ts 0 < n := hn
    exact (turns_eq unrolls_postfixAt lowers_postfixTurn hdistance).trans
      (congrArg (· >>= _) (postfixAt_zero ts))
  | before =>
    have hdistance : distance ts 0 < n := hn
    exact (turns_eq unrolls_prefixAt lowers_prefixTurn hdistance).trans
      (congrArg (· >>= _) (prefixAt_zero ts))
  | binary tier =>
    have hdistance : distance ts 0 < n := hn
    exact (turns_eq (unrolls_binaryAt tier) (lowers_binaryTurn tier) hdistance).trans
      (congrArg (· >>= _) (binaryAt_zero tier ts))
  | assignment =>
    have hleft : ts.length - 1 < n := by omega
    exact (turns_eq unrolls_assignBefore lowers_assignTurn hleft).trans
      (congrArg (· >>= _) (assignBefore_last ts))

end Reduction

end LineScript
