import LineScript.Tree.Gathering
import Mathlib.Tactic.Common

/-!
# The parts of a tree

Every tree that occurs in a tree, at any depth, and the constants and variables at its leaves from
left to right. What holds of the trees within a tree is proved by `Tree.induct`.
-/

namespace LineScript

namespace Tree

/-- To prove something of every tree it may be assumed of the trees directly within it. -/
@[elab_as_elim, induction_eliminator]
theorem induct {motive : Tree → Prop} (hole : motive .hole)
    (symbol : ∀ p s f, motive (.symbol p s f)) (label : ∀ p n, motive (.label p n))
    (identifier : ∀ p n, motive (.identifier p n)) (literal : ∀ p v, motive (.literal p v))
    («variable» : ∀ p n, motive (.variable p n)) (void : ∀ p, motive (.void p))
    (call : ∀ p n ts, (∀ t ∈ ts, motive t) → motive (.call p n ts))
    (entry : ∀ p l v, motive l → motive v → motive (.entry p l v))
    (join : ∀ p m ts, (∀ t ∈ ts, motive t) → motive (.join p m ts))
    (bracket : ∀ p t, motive t → motive (.bracket p t))
    (brace : ∀ p t, motive t → motive (.brace p t)) (t : Tree) : motive t :=
  Tree.rec (motive_2 := fun ts => ∀ t ∈ ts, motive t) hole symbol label identifier literal
    «variable» void call entry join bracket brace (by simp)
    (fun t ts ht hts => by simpa using ⟨ht, hts⟩) t

/-! ### Parts -/

mutual

/-- The tree, and all trees within it from left to right, each before its own parts. -/
def parts : Tree → List Tree
  | .call p n ts => .call p n ts :: partsList ts
  | .entry p l v => .entry p l v :: (parts l ++ parts v)
  | .join p m ts => .join p m ts :: partsList ts
  | .bracket p t => .bracket p t :: parts t
  | .brace p t => .brace p t :: parts t
  | t => [t]

/-- The parts of trees, one tree after the other. -/
def partsList : List Tree → List Tree
  | [] => []
  | t :: ts => parts t ++ partsList ts

end

@[simp] lemma mem_partsList {u : Tree} {ts : List Tree} :
    u ∈ partsList ts ↔ ∃ t ∈ ts, u ∈ t.parts := by
  induction ts with
  | nil => simp [partsList]
  | cons t ts ih => simp [partsList, ih]

lemma mem_parts_self (t : Tree) : t ∈ t.parts := by
  cases t <;> simp [parts]

/-- The trees directly within a tree. -/
def children : Tree → List Tree
  | .call _ _ ts | .join _ _ ts => ts
  | .entry _ l v => [l, v]
  | .bracket _ t | .brace _ t => [t]
  | _ => []

/-- To prove something of every tree it may be assumed of its children, whatever the tree is. -/
lemma children_induct {motive : Tree → Prop}
    (h : ∀ t : Tree, (∀ u ∈ t.children, motive u) → motive t) (t : Tree) : motive t := by
  induction t with
  | call p n ts ih | join p m ts ih => exact h _ ih
  | entry p l v hl hv => exact h _ (by simp [children, hl, hv])
  | bracket p t ih | brace p t ih => exact h _ (by simpa [children])
  | _ => exact h _ (by simp [children])

/-- All parts of the tree have the property. -/
def All (P : Tree → Prop) (t : Tree) : Prop := ∀ u ∈ t.parts, P u

instance {P : Tree → Prop} [DecidablePred P] : DecidablePred (All P) := fun t =>
  inferInstanceAs (Decidable (∀ u ∈ t.parts, P u))

variable {P : Tree → Prop} {t : Tree}

/-- A property of all parts is one of the tree and of all parts of its children. -/
lemma all_iff : t.All P ↔ P t ∧ ∀ u ∈ t.children, u.All P := by
  cases t with
  | call p n ts | join p m ts =>
    simp only [All, parts, children, List.forall_mem_cons, mem_partsList]
    refine and_congr_right fun _ => ⟨fun h u hu v hv => h v ⟨u, hu, hv⟩, ?_⟩
    rintro h v ⟨u, hu, hv⟩
    exact h u hu v hv
  | _ => simp [All, parts, children, or_imp, forall_and]

lemma All.self (h : t.All P) : P t :=
  h t t.mem_parts_self

lemma All.child (h : t.All P) {u : Tree} (hu : u ∈ t.children) : u.All P :=
  (all_iff.mp h).2 u hu

lemma All.children (h : t.All P) : t.All fun u => ∀ v ∈ u.children, P v := by
  induction t using children_induct with
  | h t ih =>
    exact all_iff.mpr ⟨fun v hv => (h.child hv).self, fun u hu => ih u hu (h.child hu)⟩

/-! ### Leaves -/

/-- A kind of tree that is a constant or a variable. -/
def Kind.isLeaf : Kind → Bool
  | .literal | .variable => true
  | _ => false

/-- The tree is a constant or a variable. -/
def isLeaf (t : Tree) : Bool := t.kind?.any Kind.isLeaf

/-- The constants and variables of a tree from left to right. -/
def leaves (t : Tree) : List Tree := t.gather Kind.isLeaf

/-- The constants and variables of trees, one tree after the other. -/
def leavesList (ts : List Tree) : List Tree := ts.flatMap leaves

lemma gatherList_eq_flatMap (wanted : Kind → Bool) (ts : List Tree) :
    gatherList wanted ts = ts.flatMap (gather wanted) := by
  induction ts with
  | nil => rfl
  | cons t ts ih => rw [gatherList, ih, List.flatMap_cons]

@[simp] lemma leaves_symbol (p : Location) (s : String) (f : Fixity) :
    (Tree.symbol p s f).leaves = [] := rfl

@[simp] lemma leaves_label (p : Location) (n : String) : (Tree.label p n).leaves = [] := rfl

@[simp] lemma leaves_identifier (p : Location) (n : String) :
    (Tree.identifier p n).leaves = [] := rfl

@[simp] lemma leaves_literal (p : Location) (v : Value) :
    (Tree.literal p v).leaves = [.literal p v] := rfl

@[simp] lemma leaves_variable (p : Location) (n : String) :
    (Tree.variable p n).leaves = [.variable p n] := rfl

@[simp] lemma leaves_void (p : Location) : (Tree.void p).leaves = [] := rfl

@[simp] lemma leaves_call (p : Location) (n : String) (ts : List Tree) :
    (Tree.call p n ts).leaves = leavesList ts :=
  gatherList_eq_flatMap _ ts

@[simp] lemma leaves_entry (p : Location) (l v : Tree) :
    (Tree.entry p l v).leaves = l.leaves ++ v.leaves := rfl

@[simp] lemma leaves_join (p : Location) (m : JoinMode) (ts : List Tree) :
    (Tree.join p m ts).leaves = leavesList ts := by
  cases m <;> exact gatherList_eq_flatMap _ ts

@[simp] lemma leaves_bracket (p : Location) (t : Tree) : (Tree.bracket p t).leaves = t.leaves := rfl

@[simp] lemma leaves_brace (p : Location) (t : Tree) : (Tree.brace p t).leaves = t.leaves := rfl

@[simp] lemma leavesList_nil : leavesList [] = [] := rfl

@[simp] lemma leavesList_cons (t : Tree) (ts : List Tree) :
    leavesList (t :: ts) = t.leaves ++ leavesList ts := rfl

@[simp] lemma leavesList_append (ts us : List Tree) :
    leavesList (ts ++ us) = leavesList ts ++ leavesList us :=
  List.flatMap_append

/-- A tree is one leaf, or its leaves are those of its children. -/
lemma leaves_eq (t : Tree) : t.leaves = if t.isLeaf then [t] else leavesList t.children := by
  cases t with
  | entry p l v => simp [children, isLeaf, kind?, Kind.isLeaf]
  | bracket p t => simp [children, isLeaf, kind?, Kind.isLeaf]
  | brace p t => simp [children, isLeaf, kind?, Kind.isLeaf]
  | call p n ts => exact leaves_call p n ts
  | join p m ts =>
    rw [leaves_join]
    cases m <;> rfl
  | _ => rfl

end Tree

end LineScript
