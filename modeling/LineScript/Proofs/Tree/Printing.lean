import LineScript.Proofs.Text.LineFeeds
import LineScript.Proofs.Tree.Parts
import LineScript.Tree.Rendering
import Mathlib.Algebra.BigOperators.Intervals

/-!
# The lines of a printed tree

A tree is printed with one piece of text for every node, from the root on and every node before its
children, behind two blanks for each level (`Tree.outline_eq`). Each piece is a line of its own as
long as none has a line feed, and only the names in it can bring one there
(`Tree.lineFeeds_text`).
-/

namespace LineScript

namespace Tree

open Text

variable {P : String → Prop} {t : Tree} {ts : List Tree}

/-! ### Nodes with their levels -/

mutual

/-- The nodes of a tree at a level, each before its children, which are one level deeper. The label
of an entry is no node of its own. -/
def nodesAt (level : ℕ) : Tree → List (ℕ × Tree)
  | .call p name ts => (level, .call p name ts) :: nodesAtList (level + 1) ts
  | .entry p l v => (level, .entry p l v) :: nodesAt (level + 1) v
  | .join p mode ts => (level, .join p mode ts) :: nodesAtList (level + 1) ts
  | .bracket p t => (level, .bracket p t) :: nodesAt (level + 1) t
  | .brace p t => (level, .brace p t) :: nodesAt (level + 1) t
  | t => [(level, t)]

/-- The nodes of trees at a level, one tree after the other. -/
def nodesAtList (level : ℕ) : List Tree → List (ℕ × Tree)
  | [] => []
  | t :: ts => nodesAt level t ++ nodesAtList level ts

end

/-- What a node is printed as, its children aside. -/
def headline : Tree → String
  | .call _ name _ => name
  | .entry _ l _ => "centry " ++ l.name ++ ":"
  | .join _ mode _ => joinName mode
  | .bracket _ _ => "[]"
  | .brace _ _ => "\x7b\x7d"
  | t => t.text

/-- The line of a node at its level. -/
def lineOf (node : ℕ × Tree) : String := indented node.1 node.2.headline

lemma outlineList_eq (h : ∀ t ∈ ts, ∀ level, t.outline level = (t.nodesAt level).map lineOf)
    (level : ℕ) : outlineList level ts = (nodesAtList level ts).map lineOf := by
  induction ts with
  | nil => rfl
  | cons t ts ih =>
    obtain ⟨ht, hts⟩ := List.forall_mem_cons.mp h
    rw [outlineList, ht, ih hts, nodesAtList, List.map_append]

/-- There is one piece of text for every node. -/
theorem outline_eq (level : ℕ) (t : Tree) : t.outline level = (t.nodesAt level).map lineOf := by
  induction t generalizing level with
  | call p name ts ih | join p mode ts ih =>
    rw [outline, nodesAt, List.map_cons, outlineList_eq fun t ht level => ih t ht level]
    rfl
  | entry p l v _ ih | bracket p v ih | brace p v ih =>
    rw [outline, nodesAt, List.map_cons, ih]
    rfl
  | _ => rfl

/-! ### Line feeds -/

/-- The name of a label. -/
def labelName : Tree → String
  | .label _ name => name
  | _ => ""

/-- The line feeds in the names of the labels of a tree. -/
def labelFeeds (t : Tree) : ℕ := (t.parts.map fun u => lineFeeds u.labelName).sum

/-- Only names of labels have line feeds, they satisfy a condition, and every entry has a label. -/
def FeedsInLabels (P : String → Prop) : Tree → Prop
  | .label _ name => P name
  | .entry _ l _ => l.isLabel = true
  | t => lineFeeds t.headline = 0

lemma feedsInLabels_void (p : Location) : FeedsInLabels P (.void p) :=
  (rfl : lineFeeds "void" = 0)

lemma feedsInLabels_join (p : Location) (mode : JoinMode) (ts : List Tree) :
    FeedsInLabels P (.join p mode ts) := by
  have hname : lineFeeds (joinName mode) = 0 := by cases mode <;> rfl
  exact hname

lemma feedsInLabels_bracket (p : Location) (t : Tree) : FeedsInLabels P (.bracket p t) :=
  (rfl : lineFeeds "[]" = 0)

lemma feedsInLabels_brace (p : Location) (t : Tree) : FeedsInLabels P (.brace p t) :=
  (rfl : lineFeeds "\x7b\x7d" = 0)

lemma exists_label_of_entry {p : Location} {l v : Tree} (h : FeedsInLabels P (.entry p l v)) :
    ∃ q name, l = .label q name := by
  cases l with
  | label q name => exact ⟨q, name, rfl⟩
  | _ => cases h

lemma sum_partsList (f : Tree → ℕ) (ts : List Tree) :
    ((partsList ts).map f).sum = (ts.map fun t => (t.parts.map f).sum).sum := by
  induction ts with
  | nil => rfl
  | cons t ts ih => simp [partsList, ih]

/-- A label has the line feeds of its name, and any other tree those of its children. -/
lemma labelFeeds_eq (t : Tree) :
    t.labelFeeds = lineFeeds t.labelName + (t.children.map labelFeeds).sum := by
  cases t with
  | call p n ts | join p m ts =>
    rw [labelFeeds, parts, List.map_cons, List.sum_cons, sum_partsList]
    rfl
  | _ => simp [labelFeeds, parts, children]

lemma labelFeeds_eq_zero (h : t.children = []) (hlabel : t.isLabel = false) : t.labelFeeds = 0 := by
  rw [labelFeeds_eq, h]
  cases t <;> first | rfl | cases hlabel

lemma labelFeeds_label (p : Location) (name : String) :
    (Tree.label p name).labelFeeds = lineFeeds name := by
  rw [labelFeeds_eq]
  rfl

lemma labelFeeds_bracket (p : Location) (t : Tree) :
    (Tree.bracket p t).labelFeeds = t.labelFeeds := by
  simp [labelFeeds_eq (.bracket p t), children, labelName, lineFeeds]

lemma labelFeeds_brace (p : Location) (t : Tree) :
    (Tree.brace p t).labelFeeds = t.labelFeeds := by
  simp [labelFeeds_eq (.brace p t), children, labelName, lineFeeds]

lemma labelFeeds_entry (p q : Location) (name : String) (v : Tree) :
    (Tree.entry p (.label q name) v).labelFeeds = lineFeeds name + v.labelFeeds := by
  rw [labelFeeds_eq, children, List.map_cons, labelFeeds_label]
  simp [labelName, lineFeeds]

lemma lineFeeds_textList (ts : List Tree) :
    lineFeeds (textList ts) = (ts.map fun t => lineFeeds t.text).sum := by
  induction ts with
  | nil => rfl
  | cons t ts ih =>
    cases ts with
    | nil => simp [textList]
    | cons u ts =>
      have hcomma : lineFeeds ", " = 0 := rfl
      have htext : textList (t :: u :: ts) = t.text ++ ", " ++ textList (u :: ts) := rfl
      rw [htext, lineFeeds_append, lineFeeds_append, hcomma, ih, Nat.add_zero]
      rfl

/-- A text between two others, the second of which has no line feeds. -/
lemma lineFeeds_enclosed {after : String} (h : lineFeeds after = 0) (before text : String) :
    lineFeeds (before ++ text ++ after) = lineFeeds before + lineFeeds text := by
  rw [lineFeeds_append, lineFeeds_append, h, Nat.add_zero]

/-- A tree on one line has the line feeds of its labels. -/
theorem lineFeeds_text (h : t.All (FeedsInLabels P)) : lineFeeds t.text = t.labelFeeds := by
  have hlist : ∀ ts : List Tree, (∀ t ∈ ts, lineFeeds t.text = t.labelFeeds) →
      lineFeeds (textList ts) = (ts.map labelFeeds).sum := fun ts hts => by
    rw [lineFeeds_textList, List.map_congr_left hts]
  induction t with
  | label p name =>
    rw [text, lineFeeds_append, labelFeeds_label]
    rfl
  | call p name ts ih =>
    have hname : lineFeeds name = 0 := h.self
    rw [text, lineFeeds_enclosed rfl, lineFeeds_append, hname,
      hlist ts fun t ht => ih t ht (h.child ht), labelFeeds_eq]
    rfl
  | join p mode ts ih =>
    have hname : lineFeeds (joinName mode) = 0 := h.self
    rw [text, lineFeeds_enclosed rfl, lineFeeds_append, hname,
      hlist ts fun t ht => ih t ht (h.child ht), labelFeeds_eq]
    rfl
  | entry p l v _ ih =>
    obtain ⟨q, name, rfl⟩ := exists_label_of_entry h.self
    have hv : v ∈ (Tree.entry p (.label q name) v).children := by simp [children]
    rw [text, lineFeeds_enclosed rfl, lineFeeds_enclosed rfl, ih (h.child hv), labelFeeds_entry]
    exact congrArg (· + v.labelFeeds) (Nat.zero_add _)
  | bracket p t ih =>
    rw [text, lineFeeds_enclosed rfl, ih (h.child List.mem_cons_self), labelFeeds_bracket]
    exact Nat.zero_add _
  | brace p t ih =>
    rw [text, lineFeeds_enclosed rfl, ih (h.child List.mem_cons_self), labelFeeds_brace]
    exact Nat.zero_add _
  | _ => exact Eq.trans h.self (labelFeeds_eq_zero rfl rfl).symm

/-! ### Printed lines -/

lemma lineFeeds_lineOf (node : ℕ × Tree) : lineFeeds (lineOf node) = lineFeeds node.2.headline := by
  have hblanks : '\n' ∉ List.replicate (2 * node.1) ' ' := fun h =>
    absurd (List.eq_of_mem_replicate h) (by decide)
  rw [lineOf, indented, lineFeeds_append, lineFeeds_ofList, List.count_eq_zero.mpr hblanks,
    Nat.zero_add]

lemma sum_nodesAtList (f : ℕ × Tree → ℕ) (level : ℕ) (ts : List Tree) :
    ((nodesAtList level ts).map f).sum = (ts.map fun t => ((t.nodesAt level).map f).sum).sum := by
  induction ts with
  | nil => rfl
  | cons t ts ih => simp [nodesAtList, ih]

/-- The lines of the nodes have the line feeds of the labels. -/
lemma sum_lineFeeds_lineOf (h : t.All (FeedsInLabels P)) (level : ℕ) :
    ((t.nodesAt level).map fun node => lineFeeds (lineOf node)).sum = t.labelFeeds := by
  simp only [lineFeeds_lineOf]
  induction t generalizing level with
  | label p name =>
    rw [nodesAt, List.map_singleton, List.sum_singleton, headline, text, lineFeeds_append,
      labelFeeds_label]
    · rfl
    all_goals simp
  | call p name ts ih | join p mode ts ih =>
    have hts : (ts.map fun t => ((t.nodesAt (level + 1)).map fun node =>
        lineFeeds node.2.headline).sum) = ts.map labelFeeds :=
      List.map_congr_left fun t ht => ih t ht (h.child ht) (level + 1)
    rw [nodesAt, List.map_cons, List.sum_cons, sum_nodesAtList, hts, labelFeeds_eq]
    exact congrArg (· + _) h.self
  | entry p l v _ ih =>
    obtain ⟨q, name, rfl⟩ := exists_label_of_entry h.self
    have hv : v ∈ (Tree.entry p (.label q name) v).children := by simp [children]
    rw [nodesAt, List.map_cons, List.sum_cons, ih (h.child hv), labelFeeds_entry, headline,
      lineFeeds_enclosed rfl]
    exact congrArg (· + v.labelFeeds) (Nat.zero_add _)
  | bracket p t ih =>
    have hgroup : lineFeeds (Tree.bracket p t).headline = 0 := by
      rw [headline]
      rfl
    rw [nodesAt, List.map_cons, List.sum_cons, ih (h.child List.mem_cons_self), labelFeeds_bracket,
      hgroup, Nat.zero_add]
  | brace p t ih =>
    have hgroup : lineFeeds (Tree.brace p t).headline = 0 := by
      rw [headline]
      rfl
    rw [nodesAt, List.map_cons, List.sum_cons, ih (h.child List.mem_cons_self), labelFeeds_brace,
      hgroup, Nat.zero_add]
  | _ => exact Eq.trans h.self (labelFeeds_eq_zero rfl rfl).symm

lemma nodesAt_ne_nil (level : ℕ) (t : Tree) : t.nodesAt level ≠ [] := by
  cases t <;> exact List.cons_ne_nil _ _

/-- The lines of a printed tree are those of its nodes, one after the other. -/
lemma splitOn_outline (level : ℕ) (t : Tree) :
    ("\n".intercalate (t.outline level)).toList.splitOn '\n' =
      (t.nodesAt level).flatMap fun node => (lineOf node).toList.splitOn '\n' := by
  rw [outline_eq, splitOn_intercalate (by simpa using nodesAt_ne_nil level t), List.flatMap_map]

/-- There is one line for every node, and one more for every line feed in a label. -/
theorem length_splitOn_outline (h : t.All (FeedsInLabels P)) (level : ℕ) :
    (("\n".intercalate (t.outline level)).toList.splitOn '\n').length =
      (t.nodesAt level).length + t.labelFeeds := by
  have hline : ∀ node : ℕ × Tree, ((lineOf node).toList.splitOn '\n').length =
      lineFeeds (lineOf node) + 1 := fun node => length_splitOn_newline _
  rw [splitOn_outline, List.length_flatMap]
  simp only [hline, List.sum_map_add, sum_lineFeeds_lineOf h level, List.map_const',
    List.sum_replicate_nat, Nat.mul_one]
  exact Nat.add_comm _ _

/-- Without line feeds in labels every node has a line of its own. -/
theorem splitOn_outline_of_labelFeeds_eq_zero (h : t.All (FeedsInLabels P))
    (hfeeds : t.labelFeeds = 0) (level : ℕ) :
    ("\n".intercalate (t.outline level)).toList.splitOn '\n' =
      (t.nodesAt level).map fun node => (lineOf node).toList := by
  have hsum := sum_lineFeeds_lineOf h level
  rw [hfeeds, List.sum_eq_zero_iff_forall_eq_nat] at hsum
  have hline : ∀ node ∈ t.nodesAt level, (lineOf node).toList.splitOn '\n' =
      [(lineOf node).toList] := fun node hnode =>
    splitOn_newline_of_not_mem (lineFeeds_eq_zero_iff.mp (hsum _ (List.mem_map_of_mem hnode)))
  rw [splitOn_outline, List.flatMap_congr hline, ← List.map_eq_flatMap]

/-! ### Trees without a text -/

/-- The tree is an integer with too many digits. -/
def isLarge : Tree → Bool
  | .literal _ v => v.isTooLarge
  | _ => false

/-- An integer with too many digits is all that keeps a tree from having a text. -/
lemma textFault?_eq (h : t.All (FeedsInLabels P)) :
    t.textFault? = if t.parts.any isLarge then some (.numeral .tooLarge) else none := by
  have hlist : ∀ ts : List Tree, (∀ t ∈ ts, t.textFault? =
      if t.parts.any isLarge then some (.numeral .tooLarge) else none) → textFaultList? ts =
        if (partsList ts).any isLarge then some (.numeral .tooLarge) else none := by
    intro ts hts
    induction ts with
    | nil => rfl
    | cons t ts ih =>
      obtain ⟨ht, hts⟩ := List.forall_mem_cons.mp hts
      rw [textFaultList?, ht, ih hts, partsList, List.any_append]
      cases t.parts.any isLarge <;> rfl
  induction t with
  | literal p v => simp [textFault?, parts, isLarge]
  | call p name ts ih | join p mode ts ih =>
    rw [textFault?, hlist ts fun t ht => ih t ht (h.child ht), parts, List.any_cons]
    rfl
  | entry p l v _ ih =>
    obtain ⟨q, name, rfl⟩ := exists_label_of_entry h.self
    have hv : v ∈ (Tree.entry p (.label q name) v).children := by simp [children]
    exact ih (h.child hv)
  | bracket p t ih | brace p t ih =>
    rw [textFault?, ih (h.child List.mem_cons_self), parts, List.any_cons]
    rfl
  | _ => rfl

/-- A tree has a text, and can be printed, unless there is an integer with too many digits in it. -/
theorem render_cases (h : t.All (FeedsInLabels P)) :
    (t.parts.any isLarge = true ∧ t.render = .error (.numeral .tooLarge) ∧
      t.printed = .error (.numeral .tooLarge)) ∨
    (t.parts.any isLarge = false ∧ t.render = .ok t.text ∧
      t.printed = .ok ("\n".intercalate (t.outline 0))) := by
  have hfault := textFault?_eq h
  cases hlarge : t.parts.any isLarge with
  | true =>
    rw [hlarge, if_pos rfl] at hfault
    exact Or.inl ⟨rfl, by rw [render, hfault], by rw [printed, hfault]⟩
  | false =>
    rw [hlarge, if_neg Bool.false_ne_true] at hfault
    exact Or.inr ⟨rfl, by rw [render, hfault], by rw [printed, hfault]⟩

end Tree

end LineScript
