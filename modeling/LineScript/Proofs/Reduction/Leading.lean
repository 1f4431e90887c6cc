import LineScript.Proofs.Reduction.Completeness
import LineScript.Proofs.Reduction.Leaders

/-!
# Reduction behind a leader

A label or a function name in front of a list stays where it is in every sweep, and the sweeps make
of the rest what they make of it by itself. So a label makes an entry of what the rest is reduced
to, and a function name calls its function with what operands and symbols behind it are reduced to.

The two runs do not fail together in one sweep: a binary symbol behind the leader is refused at
once, while the same symbol in front of the rest by itself is passed and refused in the end. What
is compared is therefore the front of the outcome, which is no symbol if nothing is refused. Only a
leader in front of another one makes no difference at all, so that the runs fail together as well.
-/

namespace LineScript

namespace Tree

lemma isOperand_eq_false_of_isLeader {t : Tree} (h : t.isLeader = true) : t.isOperand = false := by
  by_contra hoperand
  rw [isLeader_eq_false_of_isOperand (by simpa using hoperand)] at h
  cases h

lemma isPrefixSymbol_eq_false_of_isLeader {t : Tree} (h : t.isLeader = true) :
    t.isPrefixSymbol = false := by
  cases t with
  | symbol => cases h
  | _ => rfl

lemma isSymbol_eq_false_of_isLeader {t : Tree} (h : t.isLeader = true) : t.isSymbol = false := by
  cases t with
  | symbol => cases h
  | _ => rfl

end Tree

namespace Reduction

open Traced LineScript.Tree

variable {d : Dialect} {place p q : Location} {name : String} {ts us vs : List Tree} {l t v : Tree}

/-! ### Checks -/

lemma checkKnown_cons_of_isLeader (hl : l.isLeader = true) (ts : List Tree) :
    checkKnown (l :: ts) = checkKnown ts := by
  cases l with
  | hole | symbol => cases hl
  | _ => rfl

lemma checkConsumed_cons_of_isLeader (hl : l.isLeader = true) (ts : List Tree) :
    checkConsumed (l :: ts) = checkConsumed ts := by
  cases l with
  | symbol => cases hl
  | _ => rfl

lemma result_checkOperand_ne_ok (ht : t.isOperand = false) : (checkOperand t).result ≠ .ok () := by
  intro h
  rw [isOperand_of_result_checkOperand h] at ht
  cases ht

/-! ### Prefix symbols -/

/-- What is no operand does not keep a sign behind it from being a prefix symbol. -/
lemma isPrefixAfter_append (hl : l.isOperand = false) (before : List Tree) (s : String)
    (f : Fixity) : isPrefixAfter (before ++ [l]) s f = isPrefixAfter before s f := by
  cases before with
  | nil => simp [isPrefixAfter, hl]
  | cons => rfl

/-- At the bottom of a stack there is nothing to absorb but a prefix symbol. -/
lemma absorb_singleton (hunary : l.isPrefixSymbol = false) (t : Tree) :
    absorb t [l] = pure [t, l] := by
  cases l with
  | symbol p s f =>
    rw [absorb, isPrefixAfter, show Operator.isUnary s f = false from hunary]
    rfl
  | _ => rfl

lemma absorb_append (hl : l.isOperand = false) (hunary : l.isPrefixSymbol = false) (t : Tree)
    (before : List Tree) : absorb t (before ++ [l]) = do return (← absorb t before) ++ [l] := by
  fun_induction absorb t before with
  | case1 t p s f before h ih =>
    rw [List.cons_append, absorb, isPrefixAfter_append hl, if_pos h, ih]
    simp only [bind_bind]
  | case2 t p s f before h =>
    rw [List.cons_append, absorb, isPrefixAfter_append hl, if_neg h]
    rfl
  | case3 t before hbefore =>
    cases before with
    | nil => exact absorb_singleton hunary t
    | cons u before =>
      cases u with
      | symbol => exact absurd rfl (hbefore _ _ _ _)
      | _ => rfl

lemma prefixFrom_append (hl : l.isOperand = false) (hunary : l.isPrefixSymbol = false)
    (before ts : List Tree) :
    prefixFrom (before ++ [l]) ts = do return l :: (← prefixFrom before ts) := by
  fun_induction prefixFrom before ts with
  | case1 before =>
    rw [prefixFrom, List.reverse_append]
    rfl
  | case2 before t ts ht ih =>
    rw [prefixFrom, if_pos ht]
    exact ih
  | case3 before t ts ht ih =>
    rw [prefixFrom, if_neg ht, absorb_append hl hunary, bind_bind, bind_bind]
    exact bind_congr_of_ok fun after _ => ih after

/-- What is no operand and no prefix symbol stays in front of a list. -/
lemma prefixSweep_cons (hl : l.isOperand = false) (hunary : l.isPrefixSymbol = false)
    (ts : List Tree) : prefixSweep (l :: ts) = do return l :: (← prefixSweep ts) := by
  have hfirst : prefixFrom [] (l :: ts) = prefixFrom [l] ts := by
    cases l <;> rfl
  rw [prefixSweep, hfirst]
  exact prefixFrom_append hl hunary [] ts

/-! ### Binary symbols and assignments -/

/-- The list ends here, or a tree follows that is no symbol. -/
def StartsUnmarked (ts : List Tree) : Prop := ∀ t ∈ ts.head?, t.isSymbol = false

/-- A sweep leaves a tree that is no operand in front of what it makes of the rest, as soon as no
symbol is in front of that. -/
structure PassesFront (sweep : List Tree → Traced (List Tree)) : Prop where
  front {t : Tree} {ts us : List Tree} (ht : t.isOperand = false)
    (h : (sweep (t :: ts)).result = .ok us) : ∃ vs, us = t :: vs ∧ (sweep ts).result = .ok vs
  behind {t : Tree} {ts vs : List Tree} (ht : t.isOperand = false)
    (h : (sweep ts).result = .ok vs) (hvs : StartsUnmarked vs) :
    (sweep (t :: ts)).result = .ok (t :: vs)

variable {sweep next : List Tree → Traced (List Tree)}

/-- A symbol in front of a list would be in front of the outcome too. -/
lemma PassesFront.startsUnmarked (hsweep : PassesFront sweep) (h : (sweep ts).result = .ok vs)
    (hvs : StartsUnmarked vs) : StartsUnmarked ts := by
  intro t ht
  obtain ⟨rest, rfl⟩ := List.head?_eq_some_iff.mp ht
  by_contra hsymbol
  have hoperand : t.isOperand = false := by
    cases t with
    | symbol => rfl
    | _ => exact absurd rfl hsymbol
  obtain ⟨ws, rfl, -⟩ := hsweep.front hoperand h
  exact hsymbol (hvs t rfl)

lemma passesFront_pure : PassesFront pure where
  front := by
    intro t ts us _ h
    obtain rfl := Except.ok.inj h
    exact ⟨ts, rfl, rfl⟩
  behind := by
    intro t ts vs _ h _
    obtain rfl := Except.ok.inj h
    rfl

lemma PassesFront.bind (hsweep : PassesFront sweep) (hnext : PassesFront next) :
    PassesFront fun ts => sweep ts >>= next where
  front := by
    intro t ts us ht h
    obtain ⟨_, hfirst, h⟩ := result_bind_eq_ok_iff.mp h
    obtain ⟨vs, rfl, hvs⟩ := hsweep.front ht hfirst
    obtain ⟨ws, rfl, hws⟩ := hnext.front ht h
    exact ⟨ws, rfl, result_bind_eq_ok_iff.mpr ⟨vs, hvs, hws⟩⟩
  behind := by
    intro t ts ws ht h hws
    obtain ⟨vs, hvs, h⟩ := result_bind_eq_ok_iff.mp h
    have hfirst := hsweep.behind ht hvs (hnext.startsUnmarked h hws)
    rw [result_bind_of_ok hfirst]
    exact hnext.behind ht h hws

/-- The sweep of a tier passes a tree that no symbol can take as its left operand. -/
lemma result_binaryFrom_eq_ok {tier : Tier} (ht : t.isOperand = false)
    (h : (binaryFrom tier t ts).result = .ok us) :
    ∃ vs, us = t :: vs ∧ (binarySweep tier ts).result = .ok vs := by
  cases ts with
  | nil => exact ⟨[], (Except.ok.inj h).symm, rfl⟩
  | cons u ts =>
    have hpass : binaryFrom tier t (u :: ts) = (do return t :: (← binaryFrom tier u ts)) →
        ∃ vs, us = t :: vs ∧ (binaryFrom tier u ts).result = .ok vs := by
      intro heq
      rw [heq] at h
      obtain ⟨vs, hvs, h⟩ := result_bind_eq_ok_iff.mp h
      exact ⟨vs, (Except.ok.inj h).symm, hvs⟩
    cases u with
    | symbol p s f =>
      by_cases hs : tier.holds s = true
      · cases ts with
        | nil =>
          rw [binaryFrom, if_pos hs] at h
          exact absurd h result_complain_ne_ok
        | cons right ts =>
          rw [binaryFrom, if_pos hs] at h
          obtain ⟨⟨⟩, hleft, -⟩ := result_bind_eq_ok_iff.mp h
          exact absurd hleft (result_checkOperand_ne_ok ht)
      · exact hpass (binaryFrom_of_not_holds hs t p f ts)
    | _ => exact hpass (binaryFrom_of_not_isSymbol rfl)

lemma passesFront_binarySweep (tier : Tier) : PassesFront (binarySweep tier) where
  front := fun ht h => result_binaryFrom_eq_ok ht h
  behind := by
    intro t ts vs ht h hvs
    cases ts with
    | nil =>
      obtain rfl := Except.ok.inj h
      rfl
    | cons u ts =>
      have hu : u.isSymbol = false := by
        by_contra hsymbol
        have hoperand : u.isOperand = false := by
          cases u with
          | symbol => rfl
          | _ => exact absurd rfl hsymbol
        obtain ⟨ws, rfl, -⟩ := result_binaryFrom_eq_ok hoperand h
        exact hsymbol (hvs u rfl)
      rw [binarySweep] at h ⊢
      rw [binaryFrom_of_not_isSymbol hu, result_bind_of_ok h]
      rfl

lemma passesFront_foldlM_binarySweep (tiers : List Tier) :
    PassesFront fun ts => tiers.foldlM (fun ts tier => binarySweep tier ts) ts := by
  induction tiers with
  | nil => exact passesFront_pure
  | cons tier tiers ih => exact (passesFront_binarySweep tier).bind ih

/-- An assignment refuses a tree that is no operand as its target. -/
lemma result_assign_eq_ok (ht : t.isOperand = false) (h : (assign t ts).result = .ok us) :
    us = t :: ts := by
  revert h
  fun_cases assign t ts with
  | case1 =>
    intro h
    exact absurd h result_complain_ne_ok
  | case2 =>
    intro h
    obtain ⟨⟨⟩, hleft, -⟩ := result_bind_eq_ok_iff.mp h
    exact absurd hleft (result_checkOperand_ne_ok ht)
  | case3 | case4 =>
    intro h
    exact (Except.ok.inj h).symm

lemma assign_of_startsUnmarked (h : StartsUnmarked ts) (t : Tree) :
    assign t ts = pure (t :: ts) := by
  cases ts with
  | nil => rfl
  | cons u ts =>
    have hu : u.isSymbol = false := h u rfl
    cases u with
    | symbol => cases hu
    | _ => rfl

lemma passesFront_assignmentSweep : PassesFront assignmentSweep where
  front := by
    intro t ts us ht h
    obtain ⟨vs, hvs, h⟩ := result_bind_eq_ok_iff.mp h
    exact ⟨vs, result_assign_eq_ok ht h, hvs⟩
  behind := by
    intro t ts vs _ h hvs
    rw [assignmentSweep, result_bind_of_ok h, assign_of_startsUnmarked hvs]
    rfl

/-! ### All sweeps -/

/-- All sweeps over a list. Symbols without operands are left in it. -/
def uncheckedSweeps (ts : List Tree) : Traced (List Tree) := do
  let ts ← prefixSweep (postfixSweep ts)
  assignmentSweep (← binarySweeps ts)

lemma sweeps_eq_uncheckedSweeps (ts : List Tree) :
    sweeps ts = uncheckedSweeps ts >>= fun us => checkConsumed us >>= fun _ => pure us := by
  simp only [uncheckedSweeps, bind_bind]
  rfl

lemma result_sweeps_iff : (sweeps ts).result = .ok us ↔
    (uncheckedSweeps ts).result = .ok us ∧ (checkConsumed us).result = .ok () := by
  rw [sweeps_eq_uncheckedSweeps]
  constructor
  · intro h
    obtain ⟨vs, hvs, h⟩ := result_bind_eq_ok_iff.mp h
    obtain ⟨⟨⟩, hconsumed, h⟩ := result_bind_eq_ok_iff.mp h
    obtain rfl : vs = us := Except.ok.inj h
    exact ⟨hvs, hconsumed⟩
  · rintro ⟨hus, hconsumed⟩
    rw [result_bind_of_ok hus, result_bind_of_ok hconsumed]
    rfl

/-- The sweeps pass a tree in front of a list that is neither an operand nor a prefix symbol. -/
lemma uncheckedSweeps_cons (hl : l.isOperand = false) (hunary : l.isPrefixSymbol = false)
    (ts : List Tree) : uncheckedSweeps (l :: ts) =
      prefixSweep (postfixSweep ts) >>= fun us => binarySweeps (l :: us) >>= assignmentSweep := by
  rw [uncheckedSweeps, postfixSweep_cons_of_not_isOperand hl, prefixSweep_cons hl hunary, bind_bind]
  rfl

lemma passesFront_binarySweeps :
    PassesFront fun ts => binarySweeps ts >>= assignmentSweep :=
  (passesFront_foldlM_binarySweep Tier.all).bind passesFront_assignmentSweep

lemma result_uncheckedSweeps_front (hl : l.isOperand = false) (hunary : l.isPrefixSymbol = false)
    (h : (uncheckedSweeps (l :: ts)).result = .ok us) :
    ∃ vs, us = l :: vs ∧ (uncheckedSweeps ts).result = .ok vs := by
  rw [uncheckedSweeps_cons hl hunary] at h
  obtain ⟨ws, hws, h⟩ := result_bind_eq_ok_iff.mp h
  obtain ⟨vs, rfl, hvs⟩ := passesFront_binarySweeps.front hl h
  exact ⟨vs, rfl, result_bind_eq_ok_iff.mpr ⟨ws, hws, hvs⟩⟩

/-- A symbol left at the front of the rest would take the tree before it for its left operand, so
that the rest has to be swept of symbols. -/
lemma result_uncheckedSweeps_cons (hl : l.isOperand = false) (hunary : l.isPrefixSymbol = false)
    (h : (sweeps ts).result = .ok us) : (uncheckedSweeps (l :: ts)).result = .ok (l :: us) := by
  obtain ⟨hus, hconsumed⟩ := result_sweeps_iff.mp h
  obtain ⟨ws, hws, hus⟩ := result_bind_eq_ok_iff.mp hus
  have hstarts : StartsUnmarked us := fun t ht =>
    isSymbol_eq_false_of_result_checkConsumed hconsumed t (List.mem_of_mem_head? ht)
  rw [uncheckedSweeps_cons hl hunary, result_bind_of_ok hws]
  exact passesFront_binarySweeps.behind hl hus hstarts

/-- The sweeps leave a leader in front of what they make of the rest. -/
theorem result_sweeps_cons_leader (hl : l.isLeader = true) :
    (sweeps (l :: ts)).result = .ok us ↔ ∃ vs, us = l :: vs ∧ (sweeps ts).result = .ok vs := by
  have hoperand := isOperand_eq_false_of_isLeader hl
  have hunary := isPrefixSymbol_eq_false_of_isLeader hl
  constructor
  · intro h
    obtain ⟨hus, hconsumed⟩ := result_sweeps_iff.mp h
    obtain ⟨vs, rfl, hvs⟩ := result_uncheckedSweeps_front hoperand hunary hus
    rw [checkConsumed_cons_of_isLeader hl] at hconsumed
    exact ⟨vs, rfl, result_sweeps_iff.mpr ⟨hvs, hconsumed⟩⟩
  · rintro ⟨vs, rfl, h⟩
    refine result_sweeps_iff.mpr ⟨result_uncheckedSweeps_cons hoperand hunary h, ?_⟩
    rw [checkConsumed_cons_of_isLeader hl]
    exact (result_sweeps_iff.mp h).2

lemma ne_nil_of_result_sweeps (hne : ts ≠ []) (h : (sweeps ts).result = .ok us) : us ≠ [] := by
  rintro rfl
  exact hne (rewrites_sweeps h).1.of_nil

lemma result_reduce_iff : (reduce d place ts).result = .ok t ↔
    (checkKnown ts).result = .ok () ∧
      ∃ us, (sweeps ts).result = .ok us ∧ (settle d place us).result = .ok t := by
  rw [reduce_eq_sweeps]
  constructor
  · intro h
    obtain ⟨⟨⟩, hknown, h⟩ := result_bind_eq_ok_iff.mp h
    exact ⟨hknown, result_bind_eq_ok_iff.mp h⟩
  · rintro ⟨hknown, h⟩
    exact result_bind_eq_ok_iff.mpr ⟨⟨⟩, hknown, result_bind_eq_ok_iff.mpr h⟩

/-- A list behind a leader is swept by itself and settled with the leader. -/
lemma result_reduce_leader_iff (hl : l.isLeader = true) :
    (reduce d place (l :: ts)).result = .ok t ↔ (checkKnown ts).result = .ok () ∧
      ∃ us, (sweeps ts).result = .ok us ∧ (settle d place (l :: us)).result = .ok t := by
  rw [result_reduce_iff, checkKnown_cons_of_isLeader hl]
  simp only [result_sweeps_cons_leader hl]
  constructor
  · rintro ⟨hknown, _, ⟨us, rfl, hus⟩, ht⟩
    exact ⟨hknown, us, hus, ht⟩
  · rintro ⟨hknown, us, hus, ht⟩
    exact ⟨hknown, l :: us, ⟨us, rfl, hus⟩, ht⟩

/-- A list that is not empty is placed by what is in it. -/
lemma result_reduce_place (hts : ts ≠ []) (d : Dialect) (place q : Location) :
    (reduce d place ts).result = (reduce d q ts).result := by
  have hsettle : ∀ us, us ≠ [] → settle d place us = settle d q us := by
    intro us hus
    match us, hus with
    | [t], _ => cases t <;> rfl
    | t :: u :: us, _ => cases t <;> rfl
  have hsweeps : sweeps ts >>= settle d place = sweeps ts >>= settle d q :=
    bind_congr_of_ok fun us hus => hsettle us (ne_nil_of_result_sweeps hts hus)
  rw [reduce_eq_sweeps, reduce_eq_sweeps, hsweeps]

/-! ### Leaders in front of leaders -/

/-- A sweep passes whatever is in front of a leader, also where it fails behind it. -/
def PassesBeforeLeader (sweep : List Tree → Traced (List Tree)) : Prop :=
  ∀ (t l : Tree) (ts : List Tree), l.isLeader = true →
    sweep (t :: l :: ts) = do return t :: (← sweep (l :: ts))

lemma passesBeforeLeader_pure : PassesBeforeLeader pure := fun _ _ _ _ => rfl

/-- Behind one sweep the leader is still there for the next one. -/
lemma PassesBeforeLeader.bind (hfront : PassesFront sweep) (hsweep : PassesBeforeLeader sweep)
    (hnext : PassesBeforeLeader next) : PassesBeforeLeader fun ts => sweep ts >>= next := by
  intro t l ts hl
  dsimp only
  rw [hsweep t l ts hl, bind_bind, bind_bind]
  refine bind_congr_of_ok fun us hus => ?_
  obtain ⟨vs, rfl, -⟩ := hfront.front (isOperand_eq_false_of_isLeader hl) hus
  exact hnext t l vs hl

lemma passesBeforeLeader_foldlM_binarySweep (tiers : List Tier) :
    PassesBeforeLeader fun ts => tiers.foldlM (fun ts tier => binarySweep tier ts) ts := by
  induction tiers with
  | nil => exact passesBeforeLeader_pure
  | cons tier tiers ih =>
    have htier : PassesBeforeLeader (binarySweep tier) := by
      intro t l ts hl
      exact binaryFrom_of_not_isSymbol (isSymbol_eq_false_of_isLeader hl)
    exact htier.bind (passesFront_binarySweep tier) ih

lemma passesBeforeLeader_assignmentSweep : PassesBeforeLeader assignmentSweep := by
  intro t l ts hl
  rw [assignmentSweep]
  refine bind_congr_of_ok fun us hus => ?_
  obtain ⟨vs, rfl, -⟩ :=
    passesFront_assignmentSweep.front (isOperand_eq_false_of_isLeader hl) hus
  refine assign_of_startsUnmarked ?_ t
  rintro u ⟨⟩
  exact isSymbol_eq_false_of_isLeader hl

/-- In front of a leader another one is passed by all sweeps, also where they fail. -/
lemma sweeps_two_leaders (ht : t.isLeader = true) (hl : l.isLeader = true) (ts : List Tree) :
    sweeps (t :: l :: ts) = do return t :: (← sweeps (l :: ts)) := by
  have hoperand := isOperand_eq_false_of_isLeader hl
  have hunary := isPrefixSymbol_eq_false_of_isLeader hl
  have hbinary : PassesBeforeLeader fun ts => binarySweeps ts >>= assignmentSweep :=
    (passesBeforeLeader_foldlM_binarySweep Tier.all).bind
      (passesFront_foldlM_binarySweep Tier.all) passesBeforeLeader_assignmentSweep
  have hunchecked : uncheckedSweeps (t :: l :: ts) =
      do return t :: (← uncheckedSweeps (l :: ts)) := by
    rw [uncheckedSweeps_cons (isOperand_eq_false_of_isLeader ht)
      (isPrefixSymbol_eq_false_of_isLeader ht), uncheckedSweeps,
      postfixSweep_cons_of_not_isOperand hoperand, prefixSweep_cons hoperand hunary]
    simp only [bind_bind]
    exact bind_congr_of_ok fun us _ => (hbinary t l us hl).trans (bind_bind _ _ _)
  rw [sweeps_eq_uncheckedSweeps, sweeps_eq_uncheckedSweeps, hunchecked]
  simp only [bind_bind]
  refine bind_congr_of_ok fun us _ => ?_
  rw [bind_of_pure, checkConsumed_cons_of_isLeader ht]
  rfl

/-! ### Labels -/

lemma result_settle_label : (settle d place (.label p name :: us)).result = .ok t ↔
    ∃ v, (settle d p us).result = .ok v ∧ t = .entry p (.label p name) v := by
  rw [settle, result_bind_eq_ok_iff]
  constructor
  · rintro ⟨v, hv, h⟩
    exact ⟨v, hv, (Except.ok.inj h).symm⟩
  · rintro ⟨v, hv, rfl⟩
    exact ⟨v, hv, rfl⟩

lemma result_reduce_label (h : (reduce d p ts).result = .ok v) (place : Location) (name : String) :
    (reduce d place (.label p name :: ts)).result = .ok (.entry p (.label p name) v) := by
  obtain ⟨hknown, us, hus, hv⟩ := result_reduce_iff.mp h
  exact (result_reduce_leader_iff rfl).mpr ⟨hknown, us, hus, result_settle_label.mpr ⟨v, hv, rfl⟩⟩

/-- A label in front of a list makes an entry of what the list behind it is reduced to at the place
of the label, whatever is in the list; and the one list can be reduced if the other one can. -/
theorem result_reduce_label_iff (d : Dialect) (place p : Location) (name : String)
    (ts : List Tree) (t : Tree) :
    (reduce d place (.label p name :: ts)).result = .ok t ↔
      ∃ v, (reduce d p ts).result = .ok v ∧ t = .entry p (.label p name) v := by
  constructor
  · intro h
    obtain ⟨hknown, us, hus, ht⟩ := (result_reduce_leader_iff rfl).mp h
    obtain ⟨v, hv, rfl⟩ := result_settle_label.mp ht
    exact ⟨v, result_reduce_iff.mpr ⟨hknown, us, hus, hv⟩, rfl⟩
  · rintro ⟨v, hv, rfl⟩
    exact result_reduce_label hv place name

/-- A label in front of another leader makes an entry of what the list behind it is reduced to, and
it fails as that list does. -/
theorem reduce_label_leader (hl : l.isLeader = true) (d : Dialect) (place p : Location)
    (name : String) (ts : List Tree) : reduce d place (.label p name :: l :: ts) =
      do return .entry p (.label p name) (← reduce d p (l :: ts)) := by
  rw [reduce_eq_sweeps, reduce_eq_sweeps, checkKnown_cons_of_isLeader (l := .label p name) rfl,
    sweeps_two_leaders (t := .label p name) rfl hl]
  simp only [bind_bind]
  rfl

/-! ### Function names -/

/-- Operands and symbols are swept to operands. -/
lemma isOperand_of_result_sweeps (hts : ∀ t ∈ ts, t.isOperand = true ∨ t.isSymbol = true)
    (h : (sweeps ts).result = .ok us) : ∀ u ∈ us, u.isOperand = true := by
  obtain ⟨hrewrites, hunmarked⟩ := rewrites_sweeps h
  have hall : ∀ u ∈ us, u.isOperand = true ∨ u.isSymbol = true := by
    refine hrewrites.preserves (motive := fun us => ∀ u ∈ us, u.isOperand = true ∨
      u.isSymbol = true) hts ?_
    intro l r redex t hcollapse hall
    simp only [List.forall_mem_append, List.forall_mem_cons] at hall ⊢
    refine ⟨hall.1, Or.inl ?_, hall.2.2⟩
    cases hcollapse <;> rfl
  intro u hu
  refine (hall u hu).resolve_right ?_
  simp [hunmarked u hu]

lemma united_string_eq_bareArgument (place : Location) (hus : us ≠ []) :
    united .string place us = bareArgument us := by
  match us, hus with
  | [u], _ => rfl
  | u :: v :: us, _ => rfl

/-- A function name in front of something calls its function with it. -/
lemma result_settle_name (d : Dialect) (place p : Location) (name : String) (hus : us ≠ []) :
    (settle d place (.identifier p name :: us)).result =
      match d.registry.lookup name with
      | none => .error (.unresolvedCall name p)
      | some descriptor => .ok (.call p descriptor.name [bareArgument us]) := by
  obtain ⟨u, us, rfl⟩ := List.exists_cons_of_ne_nil hus
  show (implicitCall d.registry p name (u :: us)).result = _
  unfold implicitCall
  cases d.registry.lookup name <;> rfl

/-- Operands and symbols behind a function name are swept to some operands, which are what they are
reduced to by themselves once they are joined as texts. -/
lemma exists_sweeps_iff_of_argument (d : Dialect) (q : Location) (hne : ts ≠ [])
    (hts : ∀ t ∈ ts, t.isOperand = true ∨ t.isSymbol = true) :
    (reduce ⟨d.registry, .string⟩ q ts).result = .ok v ↔ (checkKnown ts).result = .ok () ∧
      ∃ us, (sweeps ts).result = .ok us ∧ v = bareArgument us := by
  have hsettle : ∀ us, (sweeps ts).result = .ok us →
      (settle ⟨d.registry, .string⟩ q us).result = .ok (bareArgument us) := by
    intro us hus
    rw [result_settle _ q (isOperand_of_result_sweeps hts hus),
      united_string_eq_bareArgument q (ne_nil_of_result_sweeps hne hus)]
  rw [result_reduce_iff]
  constructor
  · rintro ⟨hknown, us, hus, hv⟩
    rw [hsettle us hus] at hv
    exact ⟨hknown, us, hus, (Except.ok.inj hv).symm⟩
  · rintro ⟨hknown, us, hus, rfl⟩
    exact ⟨hknown, us, hus, hsettle us hus⟩

/-- A function name in front of operands and symbols calls its function with what they are reduced
to by themselves, joined as texts; and the one list can be reduced if the other one can. A name that
no function has is refused as such where nothing else is to be refused. -/
theorem result_reduce_name (d : Dialect) (place p q : Location) (name : String) (hne : ts ≠ [])
    (hts : ∀ t ∈ ts, t.isOperand = true ∨ t.isSymbol = true) :
    (∀ descriptor, d.registry.lookup name = some descriptor → ∀ t,
      (reduce d place (.identifier p name :: ts)).result = .ok t ↔
        ∃ v, (reduce ⟨d.registry, .string⟩ q ts).result = .ok v ∧
          t = .call p descriptor.name [v]) ∧
    (d.registry.lookup name = none → ∀ v, (reduce d q ts).result = .ok v →
      (reduce d place (.identifier p name :: ts)).result = .error (.unresolvedCall name p)) := by
  constructor
  · intro descriptor hlookup t
    have hsettle : ∀ us, (sweeps ts).result = .ok us →
        (settle d place (.identifier p name :: us)).result =
          .ok (.call p descriptor.name [bareArgument us]) := by
      intro us hus
      rw [result_settle_name d place p name (ne_nil_of_result_sweeps hne hus), hlookup]
    rw [result_reduce_leader_iff rfl]
    simp only [exists_sweeps_iff_of_argument d q hne hts]
    constructor
    · rintro ⟨hknown, us, hus, ht⟩
      rw [hsettle us hus] at ht
      exact ⟨_, ⟨hknown, us, hus, rfl⟩, (Except.ok.inj ht).symm⟩
    · rintro ⟨_, ⟨hknown, us, hus, rfl⟩, rfl⟩
      exact ⟨hknown, us, hus, hsettle us hus⟩
  · intro hlookup v hv
    obtain ⟨hknown, us, hus, -⟩ := result_reduce_iff.mp hv
    have hname : (sweeps (.identifier p name :: ts)).result = .ok (.identifier p name :: us) :=
      (result_sweeps_cons_leader rfl).mpr ⟨us, rfl, hus⟩
    rw [reduce_eq_sweeps, checkKnown_cons_of_isLeader rfl, result_bind_of_ok hknown,
      result_bind_of_ok hname,
      result_settle_name d place p name (ne_nil_of_result_sweeps hne hus), hlookup]

/-- In `msg -1 'x'` the sign has no operand before it, and the two operands left are one argument.
Where no function has this name, it is refused. -/
theorem reduce_name_before_sign :
    let place (column : Int) : Location := ⟨"f.ms", 1, column⟩
    let name : Tree := .identifier (place 1) "msg"
    let ts : List Tree := [.symbol (place 5) "-" .before, .literal (place 6) (.int 1),
      .literal (place 8) (.text "x")]
    let negative : Tree := .call (place 5) "neg" [.literal (place 6) (.int 1)]
    let argument : Tree := .join (place 5) .string [negative, .literal (place 8) (.text "x")]
    ts ≠ [] ∧ (∀ t ∈ ts, t.isOperand = true ∨ t.isSymbol = true) ∧
    (reduce ⟨.builtin, .list⟩ (place 1) (name :: ts)).result =
      .ok (.call (place 1) "msg" [argument]) ∧
    (reduce ⟨.empty, .list⟩ (place 1) (name :: ts)).result =
      .error (.unresolvedCall "msg" (place 1)) := by
  intro place name ts negative argument
  have hne : ts ≠ [] := by simp [ts]
  have hts : ∀ t ∈ ts, t.isOperand = true ∨ t.isSymbol = true := by
    simp [ts, isOperand, isSymbol]
  refine ⟨hne, hts, ?_, ?_⟩
  · have hcall := (result_reduce_name ⟨.builtin, .list⟩ (place 1) (place 1) (place 5) "msg" hne
      hts).1 _ rfl (.call (place 1) "msg" [argument])
    exact hcall.mpr ⟨argument, rfl, rfl⟩
  · exact (result_reduce_name ⟨.empty, .list⟩ (place 1) (place 1) (place 5) "msg" hne hts).2 rfl _
      rfl

end Reduction

end LineScript
