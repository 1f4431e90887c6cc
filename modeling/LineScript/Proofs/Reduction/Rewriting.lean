import LineScript.Proofs.Reduction.Soundness
import LineScript.Proofs.Reduction.Sweep
import Mathlib.Logic.Relation

/-!
# What the sweeps do to a list

All sweeps do the same thing: a symbol and the operands beside it make way for a call.
`Collapses` says which call it is, and `Rewrites` repeats this anywhere in a list. A list that is
reduced is rewritten until no symbol is left, and then it is settled (`Settled`). What every
collapse preserves and what settling preserves is therefore preserved by reduction.
-/

namespace LineScript

namespace Reduction

open Traced

/-! ### Rewriting -/

/-- A symbol with the operands beside it, and the call that they become. -/
inductive Collapses : List Tree → Tree → Prop where
  | step {t : Tree} {p : Location} {s : String} {f : Fixity}
      (hs : Operator.isPostfix s f = true) (ht : t.isOperand = true) :
      Collapses [t, .symbol p s f] (.call t.place (Operator.operation s f) [t])
  | sign {t : Tree} {p : Location} {s : String} {f : Fixity}
      (hs : Operator.isUnary s f = true) (ht : t.isOperand = true) :
      Collapses [.symbol p s f, t] (.call p (Operator.prefixOperation s f) [t])
  | binary {tier : Tier} {a b : Tree} {p : Location} {s : String} {f : Fixity}
      (hs : tier.holds s = true) (ha : a.isOperand = true) (hb : b.isOperand = true) :
      Collapses [a, .symbol p s f, b] (.call a.place (Operator.operation s f) [a, b])
  | assign {a b : Tree} {p : Location} {s : String} {f : Fixity}
      (hs : Operator.isAssignment s = true) (ha : a.isOperand = true) (hb : b.isOperand = true) :
      Collapses [a, .symbol p s f, b] (assignment s a b)

/-- One symbol of a list collapses with its operands. -/
inductive Rewrite : List Tree → List Tree → Prop where
  | collapse (l r : List Tree) {redex : List Tree} {t : Tree} (h : Collapses redex t) :
      Rewrite (l ++ (redex ++ r)) (l ++ t :: r)

/-- Any number of symbols collapse, one after the other. -/
def Rewrites : List Tree → List Tree → Prop := Relation.ReflTransGen Rewrite

variable {ts us vs redex : List Tree} {t u : Tree}

lemma Rewrites.refl (ts : List Tree) : Rewrites ts ts := Relation.ReflTransGen.refl

lemma Rewrites.trans (h : Rewrites ts us) (h' : Rewrites us vs) : Rewrites ts vs :=
  Relation.ReflTransGen.trans h h'

lemma Collapses.rewrites (h : Collapses redex t) (l r : List Tree) :
    Rewrites (l ++ (redex ++ r)) (l ++ t :: r) :=
  Relation.ReflTransGen.single (.collapse l r h)

lemma Rewrites.cons (h : Rewrites ts us) (t : Tree) : Rewrites (t :: ts) (t :: us) := by
  refine Relation.ReflTransGen.lift (t :: ·) ?_ _ _ h
  rintro _ _ ⟨l, r, h⟩
  exact .collapse (t :: l) r h

/-- What every collapse preserves holds of a list after all of them. -/
lemma Rewrites.preserves {motive : List Tree → Prop} (h : Rewrites ts us) (hts : motive ts)
    (hcollapse : ∀ l r redex t, Collapses redex t → motive (l ++ (redex ++ r)) →
      motive (l ++ t :: r)) : motive us := by
  induction h with
  | refl => exact hts
  | tail _ hrewrite ih =>
    obtain ⟨l, r, h⟩ := hrewrite
    exact hcollapse l r _ _ h ih

lemma ne_hole_of_rewrites (h : Rewrites ts us) (hts : ∀ t ∈ ts, t ≠ .hole) :
    ∀ u ∈ us, u ≠ .hole := by
  refine h.preserves (motive := fun ts => ∀ t ∈ ts, t ≠ .hole) hts ?_
  intro l r redex t hcollapse hne
  simp only [List.forall_mem_append, List.forall_mem_cons] at hne ⊢
  refine ⟨hne.1, ?_, hne.2.2⟩
  rintro rfl
  cases hcollapse

lemma Collapses.two_le_length (h : Collapses redex t) : 2 ≤ redex.length := by
  cases h <;> simp

lemma Rewrites.length_le (h : Rewrites ts us) : us.length ≤ ts.length := by
  refine h.preserves (motive := fun vs => vs.length ≤ ts.length) (Nat.le_refl _) ?_
  intro l r redex t hcollapse hle
  have := hcollapse.two_le_length
  simp only [List.length_append, List.length_cons] at hle ⊢
  omega

/-! ### The sweeps -/

lemma rewrites_postfixFrom (t : Tree) (ts : List Tree) :
    Rewrites (t :: ts) (postfixFrom t ts) := by
  fun_induction postfixFrom t ts with
  | case1 t => exact .refl [t]
  | case2 t p s f ts h ih =>
    obtain ⟨hs, ht⟩ := Bool.and_eq_true _ _ |>.mp h
    exact ((Collapses.step hs ht).rewrites [] ts).trans ih
  | case3 t p s f ts h ih => exact ih.cons t
  | case4 t u ts hu ih => exact ih.cons t

lemma rewrites_postfixSweep (ts : List Tree) : Rewrites ts (postfixSweep ts) := by
  cases ts with
  | nil => exact .refl []
  | cons t ts => exact rewrites_postfixFrom t ts

/-- The trees passed so far are given nearest first, as everywhere in this sweep. -/
lemma rewrites_absorb {before after : List Tree}
    (h : (absorb t before).result = .ok after) (rest : List Tree) :
    Rewrites (before.reverse ++ t :: rest) (after.reverse ++ rest) := by
  fun_induction absorb t before generalizing after with
  | case1 t p s f before hopens ih =>
    obtain ⟨⟨⟩, ht, h⟩ := result_bind_eq_ok_iff.mp h
    obtain ⟨⟨⟩, -, h⟩ := result_bind_eq_ok_iff.mp h
    have hs : Operator.isUnary s f = true := (Bool.and_eq_true _ _ |>.mp hopens).1
    have hcollapse := (Collapses.sign (p := p) hs (isOperand_of_result_checkOperand ht)).rewrites
      before.reverse rest
    simpa using hcollapse.trans (ih h)
  | case2 t p s f before hopens =>
    obtain rfl : t :: .symbol p s f :: before = after := by simpa using h
    simpa using Rewrites.refl _
  | case3 t before hbefore =>
    obtain rfl : t :: before = after := by simpa using h
    simpa using Rewrites.refl _

lemma rewrites_prefixFrom {before : List Tree}
    (h : (prefixFrom before ts).result = .ok us) : Rewrites (before.reverse ++ ts) us := by
  fun_induction prefixFrom before ts generalizing us with
  | case1 before =>
    obtain rfl : before.reverse = us := by simpa using h
    simpa using Rewrites.refl _
  | case2 before t ts ht ih => simpa using ih h
  | case3 before t ts ht ih =>
    obtain ⟨after, habsorb, h⟩ := result_bind_eq_ok_iff.mp h
    exact (rewrites_absorb habsorb ts).trans (ih after h)

lemma rewrites_binaryFrom {tier : Tier} (h : (binaryFrom tier t ts).result = .ok us) :
    Rewrites (t :: ts) us := by
  fun_induction binaryFrom tier t ts generalizing us with
  | case1 t =>
    obtain rfl : [t] = us := by simpa using h
    exact .refl [t]
  | case2 => exact absurd h result_complain_ne_ok
  | case3 t p s f hs u ts ih =>
    obtain ⟨⟨⟩, ht, h⟩ := result_bind_eq_ok_iff.mp h
    obtain ⟨⟨⟩, hu, h⟩ := result_bind_eq_ok_iff.mp h
    obtain ⟨⟨⟩, -, h⟩ := result_bind_eq_ok_iff.mp h
    have hcollapse := (Collapses.binary (p := p) (f := f) hs (isOperand_of_result_checkOperand ht)
      (isOperand_of_result_checkOperand hu)).rewrites [] ts
    exact hcollapse.trans (ih h)
  | case4 t p s f ts hs ih =>
    obtain ⟨vs, hvs, h⟩ := result_bind_eq_ok_iff.mp h
    obtain rfl : t :: vs = us := by simpa using h
    exact (ih hvs).cons t
  | case5 t u ts hu ih =>
    obtain ⟨vs, hvs, h⟩ := result_bind_eq_ok_iff.mp h
    obtain rfl : t :: vs = us := by simpa using h
    exact (ih hvs).cons t

lemma rewrites_binarySweep {tier : Tier} (h : (binarySweep tier ts).result = .ok us) :
    Rewrites ts us := by
  cases ts with
  | nil =>
    obtain rfl : [] = us := by simpa [binarySweep] using h
    exact .refl []
  | cons t ts => exact rewrites_binaryFrom h

lemma rewrites_foldlM_binarySweep {tiers : List Tier}
    (h : (tiers.foldlM (fun ts tier => binarySweep tier ts) ts).result = .ok us) :
    Rewrites ts us := by
  induction tiers generalizing ts with
  | nil =>
    obtain rfl : ts = us := by simpa using h
    exact .refl ts
  | cons tier tiers ih =>
    rw [List.foldlM_cons] at h
    obtain ⟨vs, hvs, h⟩ := result_bind_eq_ok_iff.mp h
    exact (rewrites_binarySweep hvs).trans (ih h)

lemma rewrites_assign (h : (assign t ts).result = .ok us) : Rewrites (t :: ts) us := by
  revert h
  fun_cases assign t ts with
  | case1 p s f hs =>
    intro h
    exact absurd h result_complain_ne_ok
  | case2 p s f hs u ts =>
    intro h
    obtain ⟨⟨⟩, ht, h⟩ := result_bind_eq_ok_iff.mp h
    obtain ⟨⟨⟩, hu, h⟩ := result_bind_eq_ok_iff.mp h
    obtain ⟨⟨⟩, -, h⟩ := result_bind_eq_ok_iff.mp h
    obtain rfl : assignment s t u :: ts = us := by simpa using h
    exact (Collapses.assign (p := p) (f := f) hs (isOperand_of_result_checkOperand ht)
      (isOperand_of_result_checkOperand hu)).rewrites [] ts
  | case3 p s f ts hs =>
    intro h
    obtain rfl : t :: .symbol p s f :: ts = us := by simpa using h
    exact .refl _
  | case4 hts =>
    intro h
    obtain rfl : t :: ts = us := by simpa using h
    exact .refl _

lemma rewrites_assignmentSweep (h : (assignmentSweep ts).result = .ok us) : Rewrites ts us := by
  induction ts generalizing us with
  | nil =>
    obtain rfl : [] = us := by simpa [assignmentSweep] using h
    exact .refl []
  | cons t ts ih =>
    obtain ⟨vs, hvs, h⟩ := result_bind_eq_ok_iff.mp h
    exact ((ih hvs).cons t).trans (rewrites_assign h)

/-! ### Lists without symbols -/

/-- No tree of a list is a symbol. -/
def IsUnmarked (ts : List Tree) : Prop := ∀ t ∈ ts, t.isSymbol = false

lemma isUnmarked_cons_iff : IsUnmarked (t :: ts) ↔ t.isSymbol = false ∧ IsUnmarked ts :=
  List.forall_mem_cons

lemma postfixSweep_of_isUnmarked (h : IsUnmarked ts) : postfixSweep ts = ts := by
  cases ts with
  | nil => rfl
  | cons t ts =>
    rw [postfixSweep]
    induction ts generalizing t with
    | nil => rfl
    | cons u ts ih =>
      obtain ⟨ht, hts⟩ := isUnmarked_cons_iff.mp h
      have hu := (isUnmarked_cons_iff.mp hts).1
      cases u with
      | symbol => cases hu
      | _ => exact congrArg (t :: ·) (ih _ hts)

lemma prefixFrom_of_isUnmarked {before : List Tree} (hbefore : IsUnmarked before)
    (h : IsUnmarked ts) : prefixFrom before ts = pure (before.reverse ++ ts) := by
  induction ts generalizing before with
  | nil => rw [prefixFrom, List.append_nil]
  | cons t ts ih =>
    obtain ⟨ht, hts⟩ := isUnmarked_cons_iff.mp h
    have habsorb : absorb t before = pure (t :: before) := by
      cases before with
      | nil => rfl
      | cons b before =>
        have hb := (isUnmarked_cons_iff.mp hbefore).1
        cases b with
        | symbol => cases hb
        | _ => rfl
    have hall := ih (isUnmarked_cons_iff.mpr ⟨ht, hbefore⟩) hts
    rw [List.reverse_cons, List.append_assoc, List.singleton_append] at hall
    rw [prefixFrom, if_neg (by simp [ht]), habsorb]
    exact hall

lemma binarySweep_of_isUnmarked (tier : Tier) (h : IsUnmarked ts) :
    binarySweep tier ts = pure ts := by
  cases ts with
  | nil => rfl
  | cons t ts =>
    rw [binarySweep]
    induction ts generalizing t with
    | nil => rfl
    | cons u ts ih =>
      obtain ⟨ht, hts⟩ := isUnmarked_cons_iff.mp h
      rw [binaryFrom_of_not_isSymbol (isUnmarked_cons_iff.mp hts).1, ih u hts]
      rfl

lemma foldlM_binarySweep_of_isUnmarked (tiers : List Tier) (h : IsUnmarked ts) :
    tiers.foldlM (fun ts tier => binarySweep tier ts) ts = pure ts := by
  induction tiers with
  | nil => rfl
  | cons tier tiers ih =>
    rw [List.foldlM_cons, binarySweep_of_isUnmarked tier h]
    exact ih

lemma assignmentSweep_of_isUnmarked (h : IsUnmarked ts) : assignmentSweep ts = pure ts := by
  induction ts with
  | nil => rfl
  | cons t ts ih =>
    have hts := (isUnmarked_cons_iff.mp h).2
    rw [assignmentSweep, ih hts, bind_of_pure]
    cases ts with
    | nil => rfl
    | cons u ts =>
      have hu := (isUnmarked_cons_iff.mp hts).1
      cases u with
      | symbol => cases hu
      | _ => rfl

lemma checkConsumed_of_isUnmarked (h : IsUnmarked ts) : checkConsumed ts = pure () := by
  induction ts with
  | nil => rfl
  | cons t ts ih =>
    obtain ⟨ht, hts⟩ := isUnmarked_cons_iff.mp h
    cases t with
    | symbol => cases ht
    | _ => exact ih hts

lemma checkKnown_of_isUnmarked (h : IsUnmarked ts) (hhole : ∀ t ∈ ts, t ≠ .hole) :
    checkKnown ts = pure () := by
  induction ts with
  | nil => rfl
  | cons t ts ih =>
    obtain ⟨ht, hts⟩ := isUnmarked_cons_iff.mp h
    obtain ⟨hthole, htshole⟩ := List.forall_mem_cons.mp hhole
    cases t with
    | symbol => cases ht
    | hole => exact absurd rfl hthole
    | _ => exact ih hts htshole

/-- All sweeps over a list, and the check that no symbol is left. -/
def sweeps (ts : List Tree) : Traced (List Tree) := do
  let ts ← prefixSweep (postfixSweep ts)
  let ts ← assignmentSweep (← binarySweeps ts)
  checkConsumed ts
  return ts

/-- A list is checked and swept, and then it is settled. -/
lemma reduce_eq_sweeps (d : Dialect) (place : Location) (ts : List Tree) :
    reduce d place ts = checkKnown ts >>= fun _ => sweeps ts >>= settle d place := by
  simp only [sweeps, bind_bind, bind_of_pure]
  rfl

lemma sweeps_of_isUnmarked (h : IsUnmarked ts) : sweeps ts = pure ts := by
  have hnone : IsUnmarked [] := by simp [IsUnmarked]
  have hprefix : prefixSweep ts = pure ts := prefixFrom_of_isUnmarked hnone h
  rw [sweeps, postfixSweep_of_isUnmarked h, hprefix, bind_of_pure, binarySweeps,
    foldlM_binarySweep_of_isUnmarked _ h, bind_of_pure, assignmentSweep_of_isUnmarked h,
    bind_of_pure, checkConsumed_of_isUnmarked h, bind_of_pure]

/-- A list without symbols is only settled. -/
theorem reduce_of_isUnmarked (d : Dialect) (place : Location) (h : IsUnmarked ts)
    (hhole : ∀ t ∈ ts, t ≠ .hole) : reduce d place ts = settle d place ts := by
  rw [reduce_eq_sweeps, checkKnown_of_isUnmarked h hhole, bind_of_pure, sweeps_of_isUnmarked h,
    bind_of_pure]

/-- The sweeps rewrite a list until no symbol is left. -/
theorem rewrites_sweeps (h : (sweeps ts).result = .ok us) : Rewrites ts us ∧ IsUnmarked us := by
  obtain ⟨vs, hvs, h⟩ := result_bind_eq_ok_iff.mp h
  obtain ⟨ws, hws, h⟩ := result_bind_eq_ok_iff.mp h
  obtain ⟨xs, hxs, h⟩ := result_bind_eq_ok_iff.mp h
  obtain ⟨⟨⟩, hconsumed, h⟩ := result_bind_eq_ok_iff.mp h
  obtain rfl : xs = us := Except.ok.inj h
  have hprefix : Rewrites (postfixSweep ts) vs := rewrites_prefixFrom hvs
  have hbinary : Rewrites vs ws := rewrites_foldlM_binarySweep hws
  have hassign : Rewrites ws xs := rewrites_assignmentSweep hxs
  exact ⟨(((rewrites_postfixSweep ts).trans hprefix).trans hbinary).trans hassign,
    isSymbol_eq_false_of_result_checkConsumed hconsumed⟩

/-! ### Settling -/

/-- The argument of a function that is called by its bare name. -/
def bareArgument : List Tree → Tree
  | [t] => t
  | ts => .join (ts.headD .hole).place .string ts

/-- The tree that a list without symbols is settled to. -/
inductive Settled (d : Dialect) : Location → List Tree → Tree → Prop where
  | entry {place p : Location} {name : String} {ts : List Tree} {v : Tree}
      (h : Settled d p ts v) :
      Settled d place (.label p name :: ts) (.entry p (.label p name) v)
  | single {place : Location} {t : Tree} (ht : t.isLabel = false) : Settled d place [t] t
  | call {place p : Location} {name : String} {ts : List Tree} {descriptor : Descriptor}
      (hts : ts ≠ []) (h : d.registry.lookup name = some descriptor) :
      Settled d place (.identifier p name :: ts) (.call p descriptor.name [bareArgument ts])
  | join {place p : Location} {ts : List Tree} (hts : ts.length ≠ 1)
      (hlabel : ∀ t ∈ ts.head?, t.isLabel = false)
      (hidentifier : ∀ t ∈ ts, ∀ p name, t ≠ .identifier p name) :
      Settled d place ts (.join p d.mode ts)

lemma result_implicitCall_eq_ok {registry : Registry} {p : Location} {name : String}
    (h : (implicitCall registry p name ts).result = .ok t) : ∃ descriptor,
      registry.lookup name = some descriptor ∧ t = .call p descriptor.name [bareArgument ts] := by
  unfold implicitCall at h
  dsimp only at h
  split at h
  · simp at h
  · next descriptor hlookup =>
    obtain ⟨⟨⟩, -, h⟩ := result_bind_eq_ok_iff.mp h
    refine ⟨descriptor, hlookup, ?_⟩
    obtain rfl := Except.ok.inj h
    rfl

lemma result_joined_eq_ok {mode : JoinMode} {place : Location}
    (h : (joined mode place ts).result = .ok t) :
    (∀ u ∈ ts, ∀ p name, u ≠ .identifier p name) ∧
      t = .join ((ts.head?.map Tree.place).getD place) mode ts := by
  unfold joined at h
  dsimp only at h
  split at h
  · exact absurd h result_complain_ne_ok
  · next hnone =>
    refine ⟨?_, (Except.ok.inj h).symm⟩
    rintro _ hu p name rfl
    simpa using List.findSome?_eq_none_iff.mp hnone _ hu

lemma settled_of_result_settle {d : Dialect} {place : Location}
    (h : (settle d place ts).result = .ok t) : Settled d place ts t := by
  fun_induction settle d place ts generalizing t with
  | case1 place p name ts ih =>
    obtain ⟨v, hv, h⟩ := result_bind_eq_ok_iff.mp h
    obtain rfl := Except.ok.inj h
    exact .entry (ih hv)
  | case2 place u hu =>
    obtain rfl := Except.ok.inj h
    refine .single ?_
    cases u <;> first | rfl | exact absurd rfl (hu _ _)
  | case3 place p name ts hts =>
    obtain ⟨descriptor, hlookup, rfl⟩ := result_implicitCall_eq_ok h
    refine .call ?_ hlookup
    rintro rfl
    exact hts rfl
  | case4 place ts hlabel hsingle hidentifier =>
    obtain ⟨hnone, rfl⟩ := result_joined_eq_ok h
    refine .join ?_ ?_ hnone
    · intro hlength
      obtain ⟨u, rfl⟩ := List.length_eq_one_iff.mp hlength
      exact hsingle u rfl
    · intro u hu
      cases ts with
      | nil => simp at hu
      | cons v ts =>
        obtain rfl := Option.some.inj hu
        cases v <;> first | rfl | exact absurd rfl (hlabel _ _ _)

/-! ### The whole reduction -/

lemma ne_hole_of_result_checkKnown (h : (checkKnown ts).result = .ok ()) :
    ∀ t ∈ ts, t ≠ .hole ∧ t.isKnown = true := by
  fun_induction checkKnown ts with
  | case1 => simp
  | case2 => simp at h
  | case3 p s f ts hs ih => simpa [Tree.isKnown, hs] using ih h
  | case4 => exact absurd h result_complain_ne_ok
  | case5 t ts hhole hsymbol ih =>
    refine List.forall_mem_cons.mpr ⟨⟨fun heq => hhole heq, ?_⟩, ih h⟩
    cases t <;> first | rfl | exact absurd rfl (hsymbol _ _ _)

/-- A list that is reduced is rewritten until no symbol is left, and then settled. -/
theorem exists_rewrites {d : Dialect} {place : Location}
    (h : (reduce d place ts).result = .ok t) : (∀ u ∈ ts, u ≠ .hole ∧ u.isKnown = true) ∧
      ∃ us, Rewrites ts us ∧ (∀ u ∈ us, u.isSymbol = false) ∧ Settled d place us t := by
  rw [reduce_eq_sweeps] at h
  obtain ⟨⟨⟩, hknown, h⟩ := result_bind_eq_ok_iff.mp h
  obtain ⟨us, hus, h⟩ := result_bind_eq_ok_iff.mp h
  obtain ⟨hrewrites, hunmarked⟩ := rewrites_sweeps hus
  exact ⟨ne_hole_of_result_checkKnown hknown, us, hrewrites, hunmarked,
    settled_of_result_settle h⟩

end Reduction

end LineScript
