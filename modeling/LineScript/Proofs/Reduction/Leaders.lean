import LineScript.Proofs.Reduction.Rewriting
import LineScript.Registry.Builtin

/-!
# Labels and function names in a list

A label or a bare function name is no operand, so that no symbol collapses with it: it stays in its
list, in front of what it was in front of. Labels at the head of a list become entries around what
is left, and a function name behind them takes what is left as its argument. Only there may a
function name stand, unless it is such an argument itself (`reduce_passes_names_on`).
-/

namespace LineScript

namespace Tree

/-- A kind of tree that has its place at the head of a list. -/
def Kind.isLeader : Kind → Bool
  | .label | .identifier => true
  | _ => false

/-- The tree is a label or a function name. -/
def isLeader (t : Tree) : Bool := t.kind?.any Kind.isLeader

@[simp] lemma isLeader_symbol (p : Location) (s : String) (f : Fixity) :
    (Tree.symbol p s f).isLeader = false := rfl

@[simp] lemma isLeader_call (p : Location) (n : String) (ts : List Tree) :
    (Tree.call p n ts).isLeader = false := rfl

lemma isLeader_eq_false_of_isOperand {t : Tree} (h : t.isOperand = true) : t.isLeader = false := by
  cases t with
  | join p m ts => cases m <;> rfl
  | label | identifier => cases h
  | _ => rfl

lemma isLeader_of_isLabel {t : Tree} (h : t.isLabel = true) : t.isLeader = true := by
  cases t with
  | label => rfl
  | _ => cases h

end Tree

namespace Reduction

open Traced LineScript.Tree

variable {d : Dialect} {place : Location} {ts us redex : List Tree} {t u : Tree}

/-! ### What is not rewritten -/

/-- A collapse involves no label and no function name. -/
lemma Collapses.isLeader_eq_false (h : Collapses redex t) :
    (∀ u ∈ redex, u.isLeader = false) ∧ t.isLeader = false := by
  cases h with
  | step hs ha | sign hs ha => simp [isLeader_eq_false_of_isOperand ha]
  | binary hs ha hb | assign hs ha hb =>
    refine ⟨?_, rfl⟩
    simp [isLeader_eq_false_of_isOperand ha, isLeader_eq_false_of_isOperand hb]

lemma Collapses.ne_nil (h : Collapses redex t) : redex ≠ [] := by
  cases h <;> simp

/-- The labels and function names of a list stay, in their order. -/
lemma Rewrites.filter_isLeader (h : Rewrites ts us) : us.filter isLeader = ts.filter isLeader := by
  refine h.preserves (motive := fun vs => vs.filter isLeader = ts.filter isLeader) rfl ?_
  intro l r redex t hcollapse heq
  obtain ⟨hredex, ht⟩ := hcollapse.isLeader_eq_false
  have hnone : redex.filter isLeader = [] := by simpa using hredex
  rw [← heq, List.filter_append, List.filter_append, List.filter_append, hnone,
    List.filter_cons_of_neg (by simp [ht]), List.nil_append]

lemma Rewrites.mem_iff (h : Rewrites ts us) (ht : t.isLeader = true) : t ∈ us ↔ t ∈ ts := by
  have hmem : ∀ vs : List Tree, t ∈ vs ↔ t ∈ vs.filter isLeader := by simp [ht]
  rw [hmem us, hmem ts, h.filter_isLeader]

/-- The trees of a kind of leaders stay, in their order. -/
lemma Rewrites.filter_kind (h : Rewrites ts us) (kind : Kind) (hkind : kind.isLeader = true) :
    us.filter (·.kind? = some kind) = ts.filter (·.kind? = some kind) := by
  have hof : ∀ vs : List Tree, vs.filter (·.kind? = some kind) =
      (vs.filter isLeader).filter (·.kind? = some kind) := by
    intro vs
    rw [List.filter_filter]
    refine List.filter_congr fun v _ => ?_
    by_cases hv : v.kind? = some kind
    · simp [isLeader, hv, hkind]
    · simp [hv]
  rw [hof us, hof ts, h.filter_isLeader]

lemma Rewrites.eq_nil (h : Rewrites [] us) : us = [] :=
  List.eq_nil_of_length_eq_zero (Nat.le_zero.mp h.length_le)

lemma Rewrites.of_nil (h : Rewrites ts []) : ts = [] := by
  have hstep : ∀ vs ws, Rewrite vs ws → ws ≠ [] := by
    rintro _ _ ⟨l, r, -⟩
    simp
  cases h with
  | refl => rfl
  | tail _ h => exact absurd rfl (hstep _ _ h)

/-- A leader at the head of a list stays there. -/
lemma Rewrites.exists_cons (h : Rewrites (t :: ts) us) (ht : t.isLeader = true) :
    ∃ vs, us = t :: vs ∧ Rewrites ts vs := by
  refine h.preserves (motive := fun us => ∃ vs, us = t :: vs ∧ Rewrites ts vs)
    ⟨ts, rfl, .refl ts⟩ ?_
  rintro l r redex u hcollapse ⟨vs, heq, hvs⟩
  cases l with
  | nil =>
    cases redex with
    | nil => exact absurd rfl hcollapse.ne_nil
    | cons v redex =>
      obtain rfl : v = t := (List.cons.inj heq).1
      rw [hcollapse.isLeader_eq_false.1 v List.mem_cons_self] at ht
      cases ht
  | cons v l =>
    obtain ⟨rfl, rfl⟩ := List.cons.inj heq
    exact ⟨_, rfl, hvs.trans (hcollapse.rewrites l r)⟩

/-- A leader at the head of the outcome was there from the beginning. -/
lemma Rewrites.exists_of_cons (h : Rewrites ts (t :: us)) (ht : t.isLeader = true) :
    ∃ vs, ts = t :: vs ∧ Rewrites vs us := by
  induction h using Relation.ReflTransGen.head_induction_on with
  | refl => exact ⟨us, rfl, .refl us⟩
  | head hstep _ ih =>
    obtain ⟨vs, heq, hvs⟩ := ih
    obtain ⟨l, r, hcollapse⟩ := hstep
    cases l with
    | nil =>
      obtain ⟨rfl, -⟩ := List.cons.inj heq
      rw [hcollapse.isLeader_eq_false.2] at ht
      cases ht
    | cons v l =>
      obtain ⟨rfl, rfl⟩ := List.cons.inj heq
      exact ⟨_, rfl, (hcollapse.rewrites l r).trans hvs⟩

/-- Nothing in front of a list is a label unless its first tree is one. -/
lemma takeWhile_isLabel_eq_nil (h : ∀ t ∈ ts.head?, t.isLabel = false) :
    ts.takeWhile isLabel = [] ∧ ts.dropWhile isLabel = ts := by
  cases ts with
  | nil => exact ⟨rfl, rfl⟩
  | cons t ts => simp [h t rfl]

lemma isLabel_head?_dropWhile (ts : List Tree) :
    ∀ t ∈ (ts.dropWhile isLabel).head?, t.isLabel = false := by
  intro t ht
  have hhead := List.head?_dropWhile_not isLabel ts
  rw [Option.mem_def.mp ht] at hhead
  exact hhead

/-- The labels in front of a list stay, and what is behind them is rewritten by itself. -/
lemma Rewrites.behind_labels (h : Rewrites ts us) :
    us.takeWhile isLabel = ts.takeWhile isLabel ∧
      Rewrites (ts.dropWhile isLabel) (us.dropWhile isLabel) := by
  induction ts generalizing us with
  | nil =>
    obtain rfl := h.eq_nil
    exact ⟨rfl, .refl []⟩
  | cons t ts ih =>
    cases ht : t.isLabel with
    | true =>
      obtain ⟨vs, rfl, hvs⟩ := h.exists_cons (isLeader_of_isLabel ht)
      obtain ⟨htake, hdrop⟩ := ih hvs
      rw [List.takeWhile_cons_of_pos ht, List.takeWhile_cons_of_pos ht, htake,
        List.dropWhile_cons_of_pos ht, List.dropWhile_cons_of_pos ht]
      exact ⟨rfl, hdrop⟩
    | false =>
      have hus : ∀ u ∈ us.head?, u.isLabel = false := by
        intro u hu
        obtain ⟨us, rfl⟩ := List.head?_eq_some_iff.mp hu
        by_contra hlabel
        obtain ⟨vs, heq, -⟩ := h.exists_of_cons (isLeader_of_isLabel (by simpa using hlabel))
        exact hlabel ((List.cons.inj heq).1 ▸ ht)
      obtain ⟨htake, hdrop⟩ := takeWhile_isLabel_eq_nil hus
      have hts : ∀ u ∈ (t :: ts).head?, u.isLabel = false := by simpa using ht
      obtain ⟨htake', hdrop'⟩ := takeWhile_isLabel_eq_nil hts
      rw [htake, hdrop, htake', hdrop']
      exact ⟨rfl, h⟩

/-! ### What is settled -/

/-- A value behind labels is the value of entries, each of which is the value of the one before. -/
def entries (labels : List Tree) (value : Tree) : Tree :=
  labels.foldr (fun label value => .entry label.place label value) value

/-- What is behind the labels of a list is settled by itself. -/
lemma Settled.behind_labels (h : Settled d place us t) :
    ∃ q v, Settled d q (us.dropWhile isLabel) v ∧ t = entries (us.takeWhile isLabel) v := by
  have hself : ∀ q ts v, Settled d q ts v → (∀ u ∈ ts.head?, u.isLabel = false) →
      ∃ q v', Settled d q (ts.dropWhile isLabel) v' ∧ v = entries (ts.takeWhile isLabel) v' := by
    intro q ts v hv hhead
    obtain ⟨htake, hdrop⟩ := takeWhile_isLabel_eq_nil hhead
    rw [htake, hdrop]
    exact ⟨q, v, hv, rfl⟩
  induction h with
  | @entry place p name ts v h ih =>
    obtain ⟨q, w, hw, rfl⟩ := ih
    rw [List.takeWhile_cons_of_pos rfl, List.dropWhile_cons_of_pos rfl]
    exact ⟨q, w, hw, rfl⟩
  | @single place t ht => exact hself place _ _ (.single ht) (by simpa using ht)
  | @call place _ _ _ _ hts hlookup => exact hself place _ _ (.call hts hlookup) (by simp [isLabel])
  | @join place _ _ hlength hlabel hidentifier =>
    exact hself place _ _ (.join hlength hlabel hidentifier) hlabel

/-! ### Function names -/

/-- In a list that is reduced no function name stands but directly behind the labels in front,
unless one stands there: a function that is called by its bare name takes all other names of the
list as they are, with whatever else is left, as its argument. -/
theorem reduce_passes_names_on (h : (reduce d place ts).result = .ok t) :
    let rest := ts.dropWhile isLabel
    (∀ u ∈ rest.tail, u.kind? ≠ some .identifier) ∨
    ∃ p name descriptor arguments, rest.head? = some (.identifier p name) ∧
      d.registry.lookup name = some descriptor ∧
      t = entries (ts.takeWhile isLabel) (.call p descriptor.name [bareArgument arguments]) ∧
      arguments.filter (·.kind? = some .identifier) =
        rest.tail.filter (·.kind? = some .identifier) := by
  intro rest
  obtain ⟨-, us, hrewrites, -, hsettled⟩ := exists_rewrites h
  obtain ⟨htake, hrest⟩ := hrewrites.behind_labels
  obtain ⟨q, v, hv, rfl⟩ := hsettled.behind_labels
  have hnames := hrest.filter_kind .identifier rfl
  have hnone : (us.dropWhile isLabel).filter (·.kind? = some .identifier) = [] →
      ∀ u ∈ rest.tail, u.kind? ≠ some .identifier := by
    intro hnil u hu
    rw [hnames] at hnil
    simpa using List.filter_eq_nil_iff.mp hnil u (List.mem_of_mem_tail hu)
  have hhead := isLabel_head?_dropWhile us
  generalize us.dropWhile isLabel = left at hrest hv hnames hnone hhead
  cases hv with
  | entry => cases hhead _ rfl
  | single =>
    by_cases hv : v.kind? = some .identifier
    · -- A list in which only a name is left was nothing but this name.
      obtain ⟨vs, hvs, hnil⟩ := hrest.exists_of_cons (by simp [isLeader, hv, Kind.isLeader])
      obtain rfl := hnil.of_nil
      left
      simp [rest, hvs]
    · exact Or.inl (hnone (by simp [hv]))
  | @call _ p name arguments descriptor _ hlookup =>
    obtain ⟨vs, hvs, harguments⟩ := hrest.exists_of_cons rfl
    refine Or.inr ⟨p, name, descriptor, arguments, ?_, hlookup, ?_, ?_⟩
    · rw [show rest = _ from hvs, List.head?_cons]
    · rw [htake]
    · rw [show rest = _ from hvs, List.tail_cons]
      exact harguments.filter_kind .identifier rfl
  | @join _ p _ _ _ hidentifier =>
    refine Or.inl (hnone (List.filter_eq_nil_iff.mpr fun u hu hname => ?_))
    obtain ⟨q, name, rfl⟩ : ∃ q name, u = .identifier q name := by
      cases u with
      | identifier q name => exact ⟨q, name, rfl⟩
      | join q mode ts => cases mode <;> simp [kind?] at hname
      | _ => simp [kind?] at hname
    exact hidentifier _ hu q name rfl

/-- Behind a label, `msg` takes another name as its argument, with the text before it. -/
theorem reduce_passes_name_behind_label :
    let place (column : Int) : Location := ⟨"f.ms", 1, column⟩
    let text : Tree := .literal (place 8) (.text "a")
    let ts : List Tree := [.label (place 1) "k", .identifier (place 4) "msg", text,
      .identifier (place 12) "die"]
    let argument : Tree := .join (place 8) .string [text, .identifier (place 12) "die"]
    let t : Tree := .entry (place 1) (.label (place 1) "k") (.call (place 4) "msg" [argument])
    (reduce ⟨.builtin, .list⟩ (place 1) ts).result = .ok t ∧
    ∃ p name descriptor arguments,
      (ts.dropWhile isLabel).head? = some (.identifier p name) ∧
      Registry.builtin.lookup name = some descriptor ∧
      t = entries (ts.takeWhile isLabel) (.call p descriptor.name [bareArgument arguments]) ∧
      arguments.filter (·.kind? = some .identifier) = [.identifier (place 12) "die"] := by
  intro place text ts argument t
  have hreduce : (reduce ⟨.builtin, .list⟩ (place 1) ts).result = .ok t := rfl
  refine ⟨hreduce, ?_⟩
  rcases reduce_passes_names_on hreduce with hnone | hpassed
  · have hmem : Tree.identifier (place 12) "die" ∈ [text, .identifier (place 12) "die"] := by simp
    exact absurd rfl (hnone _ hmem)
  · exact hpassed

/-- In `msg msg` the second name does not lead its list and is not refused. -/
theorem reduce_name_behind_name :
    ¬∀ (d : Dialect) (place : Location) (ts : List Tree) (t : Tree),
      (reduce d place ts).result = .ok t →
        ∀ u ∈ (ts.dropWhile isLabel).tail, u.kind? ≠ some .identifier := by
  intro hclaim
  have hname := hclaim ⟨.builtin, .string⟩ ⟨"f.ms", 1, 1⟩
    [.identifier ⟨"f.ms", 1, 1⟩ "msg", .identifier ⟨"f.ms", 1, 5⟩ "msg"] _ rfl
    (.identifier ⟨"f.ms", 1, 5⟩ "msg") (List.mem_singleton_self _)
  exact hname rfl

end Reduction

end LineScript
