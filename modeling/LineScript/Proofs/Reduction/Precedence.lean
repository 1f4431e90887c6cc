import LineScript.Proofs.Reduction.Completeness
import LineScript.Proofs.Reduction.Soundness

/-!
# Reduction follows precedence

The grammar leaves no phrase without a tree: a unit and a symbol before a phrase go down its left
edge, past all symbols that are looser. With both halves, that phrases are reduced and that only
phrases are, the sweeps agree with the grammar on what they accept and on what they return.
-/

namespace LineScript

namespace Reduction

open Traced

/-! ### Every phrase has a tree -/

lemma Stepped.exists_append {l : List Tree} {t : Tree} (h : Stepped l t) {steps : List Tree}
    (hsteps : ∀ u ∈ steps, u.isPostfixSymbol = true) : ∃ v, Stepped (l ++ steps) v := by
  induction steps generalizing l t with
  | nil => exact ⟨t, by simpa using h⟩
  | cons u steps ih =>
    have hu : u.isPostfixSymbol = true := hsteps u List.mem_cons_self
    cases u with
    | symbol p s f =>
      obtain ⟨v, hv⟩ := ih (h.step hu) fun w hw => hsteps w (List.mem_cons_of_mem _ hw)
      exact ⟨v, by simpa using hv⟩
    | _ => exact absurd hu (by simp [Tree.isPostfixSymbol])

lemma IsUnit.exists_signed {l : List Tree} (h : IsUnit l) : ∃ t, Signed l t := by
  obtain ⟨signs, t, steps, rfl, hsigns, ht, hsteps⟩ := h
  induction signs with
  | nil =>
    obtain ⟨v, hv⟩ := (Stepped.operand ht).exists_append hsteps
    exact ⟨v, .stepped hv⟩
  | cons u signs ih =>
    obtain ⟨v, hv⟩ := ih fun w hw => hsigns w (List.mem_cons_of_mem _ hw)
    have hu : u.isPrefixSymbol = true := hsigns u List.mem_cons_self
    cases u with
    | symbol p s f => exact ⟨_, hv.sign hu⟩
    | _ => exact absurd hu (by simp [Tree.isPrefixSymbol])

lemma Signed.tiered {l : List Tree} {t : Tree} (h : Signed l t) (tiers : List Tier) :
    Tiered tiers l t := by
  induction tiers with
  | nil => exact .signed h
  | cons tier tiers ih => exact .tighter ih

/-- A further operand on the left goes below every symbol that is looser than the one behind it. -/
lemma Tiered.exists_append {tiers : List Tier} {u m : List Tree} {a b : Tree} {tier : Tier}
    {p : Location} {s : String} {f : Fixity} (hu : Signed u a) (hs : tier.holds s = true)
    (htier : tier ∈ tiers) (h : Tiered tiers m b) :
    ∃ t, Tiered tiers (u ++ .symbol p s f :: m) t := by
  induction h with
  | signed => simp at htier
  | @tighter tier' tiers m b h ih =>
    rcases List.mem_cons.mp htier with rfl | htier
    · exact ⟨_, .binary hs (hu.tiered _) h⟩
    · obtain ⟨t, ht⟩ := ih htier
      exact ⟨t, .tighter ht⟩
  | @binary _ _ _ _ _ _ q _ g hs' hl hm ihl =>
    obtain ⟨t, ht⟩ := ihl htier
    have hbinary := Tiered.binary (p := q) (f := g) hs' ht hm
    exact ⟨_, by simpa using hbinary⟩

lemma Assigned.exists_append {u m : List Tree} {a b : Tree} {p : Location} {s : String}
    {f : Fixity} (hu : Signed u a) (hs : Operator.isJoint s = true) (h : Assigned m b) :
    ∃ t, Assigned (u ++ .symbol p s f :: m) t := by
  rcases Operator.isJoint_iff.mp hs with ⟨tier, hs⟩ | hs
  · have htier : tier ∈ Tier.all.reverse := List.mem_reverse.mpr tier.mem_all
    cases h with
    | value h =>
      obtain ⟨t, ht⟩ := h.exists_append (p := p) (f := f) hu hs htier
      exact ⟨t, .value ht⟩
    | @assign _ _ _ _ q g hl hm =>
      obtain ⟨t, ht⟩ := hl.exists_append (p := p) (f := f) hu hs htier
      have hassign := Assigned.assign (p := q) (f := g) ht hm
      exact ⟨_, by simpa using hassign⟩
    | @compound _ _ _ _ q _ g hs' hcompound hl hm =>
      obtain ⟨t, ht⟩ := hl.exists_append (p := p) (f := f) hu hs htier
      have hassign := Assigned.compound (p := q) (f := g) hs' hcompound ht hm
      exact ⟨_, by simpa using hassign⟩
  · exact ⟨_, .assignment hs (hu.tiered _) h⟩

/-- Every phrase has a tree. -/
theorem IsPhrase.exists_assigned {l : List Tree} (h : IsPhrase l) : ∃ t, Assigned l t := by
  induction h with
  | unit h =>
    obtain ⟨t, ht⟩ := h.exists_signed
    exact ⟨t, .value (ht.tiered _)⟩
  | @joined l m j hl hj hm ih =>
    obtain ⟨a, ha⟩ := hl.exists_signed
    obtain ⟨b, hb⟩ := ih
    cases j with
    | symbol p s f => exact hb.exists_append ha hj
    | _ => exact absurd hj (by simp [Tree.isJointSymbol])

/-- A list stands for one tree at most. -/
theorem Assigned.unique {l : List Tree} {t t' : Tree} (h : Assigned l t) (h' : Assigned l t') :
    t = t' := by
  have hreduce : ∀ u, Assigned l u →
      (reduce ⟨.empty, .list⟩ .unknown [l].flatten).result = .ok u := fun u hu =>
    result_reduce_flatten ⟨.empty, .list⟩ .unknown (.cons hu .nil) (by simp)
  have heq := (hreduce t h).symm.trans (hreduce t' h')
  exact Except.ok.inj heq

lemma exists_trees {phrases : List (List Tree)} (h : ∀ l ∈ phrases, IsPhrase l) :
    ∃ trees, List.Forall₂ Assigned phrases trees := by
  induction phrases with
  | nil => exact ⟨[], .nil⟩
  | cons l phrases ih =>
    obtain ⟨t, ht⟩ := (h l List.mem_cons_self).exists_assigned
    obtain ⟨trees, htrees⟩ := ih fun m hm => h m (List.mem_cons_of_mem _ hm)
    exact ⟨t :: trees, .cons ht htrees⟩

/-! ### Acceptance and result -/

/-- A split list is reduced to the trees of its phrases. -/
lemma IsSplit.result_reduce {ts : List Tree} {phrases : List (List Tree)} (h : IsSplit ts phrases)
    (d : Dialect) (place : Location) : ∃ trees, List.Forall₂ Assigned phrases trees ∧
      (reduce d place ts).result = .ok (united d.mode place trees) := by
  obtain ⟨trees, htrees⟩ := exists_trees h.isPhrase
  refine ⟨trees, htrees, ?_⟩
  rw [← h.flatten_eq]
  exact result_reduce_flatten d place htrees h.unsigned

/-- Only known symbols are reduced. -/
lemma isKnown_of_result_reduce {d : Dialect} {place : Location} {ts : List Tree} {t : Tree}
    (hts : ∀ t ∈ ts, t.isOperand = true ∨ t.isSymbol = true)
    (h : (reduce d place ts).result = .ok t) : ∀ u ∈ ts, u.isKnown = true := by
  obtain ⟨⟨⟩, hknown, -⟩ := result_bind_eq_ok_iff.mp h
  refine (result_checkKnown_iff ?_).mp hknown
  rintro u hu rfl
  rcases hts _ hu with hhole | hhole
  · simp at hhole
  · simp [Tree.isSymbol] at hhole

/-- A list of operands and symbols is reduced just when all its symbols are known and it splits
into phrases none of which after the first begins with a sign. Whichever way it splits, the result
is the tree of its only phrase, or the join of the trees of its phrases. -/
theorem reduce_follows_grammar (d : Dialect) (place : Location) (ts : List Tree)
    (hts : ∀ t ∈ ts, t.isOperand = true ∨ t.isSymbol = true) :
    ((∃ t, (reduce d place ts).result = .ok t) ↔
      (∀ t ∈ ts, t.isKnown = true) ∧ ∃ phrases, IsSplit ts phrases) ∧
    ∀ t phrases, (reduce d place ts).result = .ok t → IsSplit ts phrases →
      ∃ trees, List.Forall₂ Assigned phrases trees ∧ t = united d.mode place trees := by
  refine ⟨⟨?_, ?_⟩, ?_⟩
  · rintro ⟨t, h⟩
    exact ⟨isKnown_of_result_reduce hts h, exists_isSplit hts h⟩
  · rintro ⟨-, phrases, hsplit⟩
    obtain ⟨trees, -, h⟩ := hsplit.result_reduce d place
    exact ⟨_, h⟩
  · intro t phrases h hsplit
    obtain ⟨trees, htrees, h'⟩ := hsplit.result_reduce d place
    refine ⟨trees, htrees, ?_⟩
    rw [h] at h'
    exact Except.ok.inj h'

/-- The list `@a ++ * - @b @c += - @d` splits into two phrases, and their trees are joined. -/
theorem reduce_two_phrases :
    let ts : List Tree := [.variable .unknown "@a", .symbol .unknown "++" .after,
      .symbol .unknown "*" .between, .symbol .unknown "-" .between, .variable .unknown "@b",
      .variable .unknown "@c", .symbol .unknown "+=" .between, .symbol .unknown "-" .between,
      .variable .unknown "@d"]
    let negated (name : String) : Tree := .call .unknown "neg" [.variable .unknown name]
    let product : Tree := .call .unknown "multiply"
      [.call .unknown "postinc" [.variable .unknown "@a"], negated "@b"]
    let sum : Tree := .call .unknown "assign" [.variable .unknown "@c",
      .call .unknown "add" [.variable .unknown "@c", negated "@d"]]
    ∃ phrases trees, IsSplit ts phrases ∧ List.Forall₂ Assigned phrases trees ∧
      .join .unknown .list [product, sum] = united .list .unknown trees := by
  intro ts negated product sum
  obtain ⟨haccepted, hresult⟩ := reduce_follows_grammar ⟨.empty, .list⟩ .unknown ts (by decide)
  have hreduce : (reduce ⟨.empty, .list⟩ .unknown ts).result =
      .ok (.join .unknown .list [product, sum]) := rfl
  obtain ⟨-, phrases, hsplit⟩ := haccepted.mp ⟨_, hreduce⟩
  obtain ⟨trees, htrees, heq⟩ := hresult _ phrases hreduce hsplit
  exact ⟨phrases, trees, hsplit, htrees, heq⟩

end Reduction

end LineScript
