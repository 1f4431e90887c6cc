import LineScript.Proofs.Compilation.Outcome
import LineScript.Proofs.Finishing.Cases
import LineScript.Proofs.Reduction.Leaders

/-!
# Labels of compiled sources

The labels at the head of a list become entries. A label that stands behind another tree of its list
is no operand, but what is left of a list may be joined or become an argument, and nothing keeps a
label from being among it. The labels in a compiled tree that no entry has are therefore those that
stand behind other trees in the lists of the region (`compile_keeps_misplaced_labels`).
-/

namespace LineScript

namespace Tree

open Reduction Grouping

/-- The trees directly within a tree, but for the label of an entry. -/
def inner : Tree → List Tree
  | .entry _ _ v => [v]
  | t => t.children

/-- The label occurs in the tree, and not as the label of an entry. -/
def IsStray (label t : Tree) : Prop := ∃ u ∈ t.parts, label ∈ u.inner

/-- In a list of the tree the label stands behind a tree that is none. -/
def IsMisplaced (label t : Tree) : Prop := ∃ u ∈ t.parts, label ∈ u.children.dropWhile isLabel

variable {d : Dialect} {p : Location} {name : String} {label t u : Tree}
  {ts us redex : List Tree}

lemma exists_mem_parts_iff {P : Tree → Prop} :
    (∃ u ∈ t.parts, P u) ↔ P t ∨ ∃ u ∈ t.children, ∃ v ∈ u.parts, P v := by
  have hnone := not_congr (all_iff (P := fun u => ¬P u) (t := t))
  simp only [All, not_and_or, not_forall, not_not, exists_prop] at hnone
  exact hnone

lemma isStray_iff : IsStray label t ↔ label ∈ t.inner ∨ ∃ u ∈ t.children, IsStray label u :=
  exists_mem_parts_iff

lemma isMisplaced_iff : IsMisplaced label t ↔
    label ∈ t.children.dropWhile isLabel ∨ ∃ u ∈ t.children, IsMisplaced label u :=
  exists_mem_parts_iff

lemma not_isStray_of_children_eq_nil (h : t.children = []) : ¬IsStray label t := by
  rw [isStray_iff, h]
  cases t <;> simp_all [inner, children]

lemma not_isMisplaced_of_children_eq_nil (h : t.children = []) : ¬IsMisplaced label t := by
  rw [isMisplaced_iff, h]
  simp

lemma isStray_call_iff : IsStray label (.call p name ts) ↔
    label ∈ ts ∨ ∃ u ∈ ts, IsStray label u :=
  isStray_iff

lemma isStray_join_iff {mode : JoinMode} : IsStray label (.join p mode ts) ↔
    label ∈ ts ∨ ∃ u ∈ ts, IsStray label u :=
  isStray_iff

lemma isStray_entry_iff {q : Location} {v : Tree} :
    IsStray label (.entry p (.label q name) v) ↔ label = v ∨ IsStray label v := by
  have hleaf : ¬IsStray label (.label q name) := not_isStray_of_children_eq_nil rfl
  rw [isStray_iff]
  simp [inner, children, hleaf]

/-- The label occurs in one of the trees, and not as the label of an entry. -/
def AnyStray (label : Tree) (ts : List Tree) : Prop := ∃ u ∈ ts, IsStray label u

@[simp] lemma anyStray_nil : ¬AnyStray label [] := by simp [AnyStray]

@[simp] lemma anyStray_cons : AnyStray label (t :: ts) ↔ IsStray label t ∨ AnyStray label ts := by
  simp [AnyStray]

@[simp] lemma anyStray_append :
    AnyStray label (ts ++ us) ↔ AnyStray label ts ∨ AnyStray label us := by
  simp [AnyStray, or_and_right, exists_or]

/-! ### Reduction -/

lemma ne_of_isOperand (hlabel : label.isLabel = true) (ht : t.isOperand = true) : label ≠ t := by
  rintro rfl
  cases label with
  | label => cases ht
  | _ => cases hlabel

@[simp] lemma not_isStray_symbol {s : String} {f : Fixity} : ¬IsStray label (.symbol p s f) :=
  not_isStray_of_children_eq_nil rfl

/-- A call of operands has the stray labels that they have. -/
lemma isStray_call_of_isOperand (hlabel : label.isLabel = true)
    (hts : ∀ t ∈ ts, t.isOperand = true) : IsStray label (.call p name ts) ↔ AnyStray label ts := by
  have hnot : label ∉ ts := fun hmem => ne_of_isOperand hlabel (hts label hmem) rfl
  simp [isStray_call_iff, hnot, AnyStray]

lemma isStray_of_collapses (hlabel : label.isLabel = true) (h : Collapses redex t) :
    IsStray label t ↔ AnyStray label redex := by
  cases h with
  | step hs ht | sign hs ht => simp [isStray_call_of_isOperand hlabel, ht]
  | binary hs ha hb => simp [isStray_call_of_isOperand hlabel, ha, hb]
  | @assign a b p s f hs ha hb =>
    have hresult : ∀ op, IsStray label (.call a.place op [a, b]) ↔
        IsStray label a ∨ IsStray label b := by
      intro op
      simp [isStray_call_of_isOperand hlabel, ha, hb]
    rw [assignment]
    cases Operator.compound? s with
    | none => simp [hresult]
    | some op => simp [isStray_call_of_isOperand hlabel, ha, hresult]

lemma anyStray_of_rewrites (hlabel : label.isLabel = true) (h : Rewrites ts us) :
    AnyStray label us ↔ AnyStray label ts := by
  refine h.preserves (motive := fun vs => AnyStray label vs ↔ AnyStray label ts) Iff.rfl ?_
  intro l r redex t hcollapse hiff
  rw [← hiff]
  simp [isStray_of_collapses hlabel hcollapse]

/-- An argument has the stray labels of what it is made of, or it is one. -/
lemma isStray_call_bareArgument (hlabel : label.isLabel = true) :
    IsStray label (.call p name [bareArgument ts]) ↔ label ∈ ts ∨ AnyStray label ts := by
  rw [isStray_call_iff]
  unfold bareArgument
  split
  · simp
  · have hne : ∀ q, label ≠ .join q .string ts := by
      rintro q rfl
      cases hlabel
    simp [hne, isStray_join_iff, AnyStray]

/-- A list without symbols is settled with the stray labels of its trees, and with those that stand
behind other trees. -/
lemma isStray_of_settled (hlabel : label.isLabel = true) (h : Settled d p ts t) :
    t.isLabel = false ∧
      (IsStray label t ↔ label ∈ ts.dropWhile isLabel ∨ AnyStray label ts) := by
  have hne : ∀ {u : Tree}, u.isLabel = false → label ≠ u := by
    rintro u hu rfl
    rw [hlabel] at hu
    cases hu
  have hleaf : ∀ {u : Tree}, u.children = [] → ¬IsStray label u := not_isStray_of_children_eq_nil
  induction h with
  | @entry place p name ts v _ ih =>
    refine ⟨rfl, ?_⟩
    rw [isStray_entry_iff, or_iff_right (hne ih.1), ih.2, List.dropWhile_cons_of_pos rfl,
      anyStray_cons, or_iff_right (hleaf rfl)]
  | @single place t ht => exact ⟨ht, by simp [ht, hne ht]⟩
  | @call place p name ts descriptor hts hlookup =>
    refine ⟨rfl, ?_⟩
    rw [isStray_call_bareArgument hlabel, List.dropWhile_cons_of_neg (by simp [isLabel]),
      List.mem_cons, or_iff_right (hne rfl), anyStray_cons, or_iff_right (hleaf rfl)]
  | @join place p ts hlength hhead hidentifier =>
    refine ⟨rfl, ?_⟩
    rw [isStray_join_iff, (takeWhile_isLabel_eq_nil hhead).2]
    rfl

lemma isStray_of_result_reduce (hlabel : label.isLabel = true)
    (h : (reduce d p ts).result = .ok t) : t.isLabel = false ∧
      (IsStray label t ↔ label ∈ ts.dropWhile isLabel ∨ AnyStray label ts) := by
  obtain ⟨-, us, hrewrites, -, hsettled⟩ := exists_rewrites h
  obtain ⟨ht, hstray⟩ := isStray_of_settled hlabel hsettled
  refine ⟨ht, ?_⟩
  rw [hstray, hrewrites.behind_labels.2.mem_iff (isLeader_of_isLabel hlabel),
    anyStray_of_rewrites hlabel hrewrites]

/-! ### Finishing -/

/-- A group with finished lists has the stray labels that they have. -/
lemma isStray_of_finishedCall (hlabel : label.isLabel = true) (h : FinishedCall d p name ts t)
    (hts : ∀ u ∈ ts, u.isLabel = false) :
    t.isLabel = false ∧ (IsStray label t ↔ AnyStray label ts) := by
  have hnot : label ∉ ts := fun hmem => by
    rw [hts label hmem] at hlabel
    cases hlabel
  have hreduced : (reduce d p ts).result = .ok t →
      t.isLabel = false ∧ (IsStray label t ↔ AnyStray label ts) := by
    intro hreduce
    obtain ⟨ht, hstray⟩ := isStray_of_result_reduce hlabel hreduce
    have hdrop : label ∉ ts.dropWhile isLabel := fun hmem =>
      hnot ((List.dropWhile_sublist _).mem hmem)
    exact ⟨ht, by rw [hstray, or_iff_right hdrop]⟩
  have hcontent : ∀ v, SoleContent p ts v →
      v.isLabel = false ∧ label ≠ v ∧ (IsStray label v ↔ AnyStray label ts) := by
    rintro v (_ | v)
    · refine ⟨rfl, ?_, iff_of_false (not_isStray_of_children_eq_nil rfl) anyStray_nil⟩
      rintro rfl
      cases hlabel
    · refine ⟨hts v (List.mem_singleton_self v), ?_, by simp⟩
      rintro rfl
      exact hnot (List.mem_singleton_self label)
  cases h with
  | list h => exact hreduced h
  | paren h => exact (hcontent t h).imp_right And.right
  | parenList h => exact hreduced h
  | @bracket _ v h | @brace _ v h =>
    obtain ⟨-, hne, hstray⟩ := hcontent v h
    refine ⟨rfl, ?_⟩
    rw [isStray_iff, ← hstray]
    simp [inner, children, hne]
  | call hname =>
    refine ⟨rfl, ?_⟩
    rw [isStray_call_iff, or_iff_right hnot]
    rfl

lemma exists_mem_iff_of_forall₂ {α β : Type} {P : α → Prop} {Q : β → Prop} {l : List α}
    {m : List β} (h : List.Forall₂ (fun a b => Q b ↔ P a) l m) :
    (∃ b ∈ m, Q b) ↔ ∃ a ∈ l, P a := by
  induction h with
  | nil => simp
  | cons hab _ ih => simp [hab, ih]

lemma forall₂_dropWhile_isLabel {R : Tree → Tree → Prop}
    (hR : ∀ t u, R t u → u.isLabel = t.isLabel) (h : List.Forall₂ R ts us) :
    List.Forall₂ R (ts.dropWhile isLabel) (us.dropWhile isLabel) := by
  induction h with
  | nil => exact .nil
  | @cons t u ts us htu hrest ih =>
    have hu := hR t u htu
    cases ht : t.isLabel with
    | true => rwa [List.dropWhile_cons_of_pos ht, List.dropWhile_cons_of_pos (hu.trans ht)]
    | false =>
      rw [List.dropWhile_cons_of_neg (by simp [ht]), List.dropWhile_cons_of_neg (by simp [hu, ht])]
      exact .cons htu hrest

/-- The stray labels of finished elements and lists are those that were misplaced. -/
lemma carries_isStray (hlabel : label.isLabel = true) (d : Dialect) (registry : Registry)
    (tokens : List Token) : Carries d (Bears registry tokens)
      (fun e u => u.isLabel = e.isLabel ∧ (u = label ↔ e = label) ∧
        (IsStray label u ↔ IsMisplaced label e))
      (fun l u => u.isLabel = false ∧ (IsStray label u ↔ IsMisplaced label l.call)) where
  atom t u ht hu := by
    obtain rfl := eq_of_finish_bears ht hu
    exact ⟨rfl, Iff.rfl, iff_of_false (not_isStray_of_children_eq_nil ht.children_eq_nil)
      (not_isMisplaced_of_children_eq_nil ht.children_eq_nil)⟩
  list l us u hus hu := by
    obtain ⟨hnot, hstray⟩ := isStray_of_result_reduce hlabel hu
    refine ⟨hnot, hstray.trans (Iff.trans ?_ isMisplaced_iff.symm)⟩
    have hdrop := forall₂_dropWhile_isLabel (fun _ _ h => h.1) hus
    have hmem := exists_mem_iff_of_forall₂ (hdrop.imp fun _ _ h => h.2.1)
    have hany := exists_mem_iff_of_forall₂ (hus.imp fun _ _ h => h.2.2)
    simp only [exists_eq_right] at hmem
    exact or_congr hmem hany
  group p name ls us u hus hu := by
    have hnot := forall_of_forall₂ (hus.imp fun _ _ h => h.1)
    obtain ⟨hu, hstray⟩ := isStray_of_finishedCall hlabel hu hnot
    refine ⟨hu, iff_of_false ?_ ?_, hstray.trans ?_⟩
    · rintro rfl
      rw [hlabel] at hu
      cases hu
    · rintro rfl
      cases hlabel
    · -- the children of a group are lists, none of which is a label
      have hany := exists_mem_iff_of_forall₂ (hus.imp fun _ _ h => h.2)
      have hlists : label ∉ (ls.map Siblings.call).dropWhile isLabel := fun hmem => by
        obtain ⟨l, -, rfl⟩ := List.mem_map.mp ((List.dropWhile_sublist _).mem hmem)
        cases hlabel
      refine hany.trans (Iff.trans ?_ isMisplaced_iff.symm)
      rw [children, or_iff_right hlists]
      simp

end Tree

namespace Compiler

open Traced Grouping

variable {options : Options} {source file : String} {compiled : Compiled}

/-- A compiled tree is no label, and the labels in it that are not the labels of entries are exactly
those that stand behind other trees in the lists of its region. -/
theorem compile_keeps_misplaced_labels (hfinish : options.finish = true)
    (h : resultOf options source file = .ok compiled) :
    ∃ n regions, regionsOf options source file = .ok (n, regions) ∧
      List.Forall₂ (fun region tree => tree.isLabel = false ∧ ∀ label : Tree,
        label.isLabel = true → (label.IsStray tree ↔ label.IsMisplaced region))
        regions compiled.trees := by
  obtain ⟨n, regions, hregions, htrees⟩ := exists_regions_of_resultOf h
  obtain ⟨ts, hshape⟩ := isRegion_of_regionsOf hregions
  refine ⟨n, regions, hregions, Tree.forall₂_imp_of_mem htrees fun region hregion tree htree => ?_⟩
  obtain ⟨l, rfl, hl⟩ := hshape region hregion
  rw [treat, if_pos hfinish] at htree
  have hstray : ∀ label : Tree, label.isLabel = true →
      tree.isLabel = false ∧ (label.IsStray tree ↔ label.IsMisplaced l.call) := fun label hlabel =>
    (Tree.carries_isStray hlabel options.dialect options.functions ts).region hl htree
  exact ⟨(hstray (.label .unknown "") rfl).1, fun label hlabel => (hstray label hlabel).2⟩

/-- Of the labels of `k: 1 j: 2` the first one is that of an entry, and the second one is joined
with the numbers. -/
theorem compile_keeps_second_label :
    let options : Options := {}
    let source := "k: 1 j: 2"
    options.finish = true ∧ ∃ compiled, resultOf options source "f.ms" = .ok compiled ∧
      (∃ n regions, regionsOf options source "f.ms" = .ok (n, regions) ∧
        List.Forall₂ (fun region tree => tree.isLabel = false ∧ ∀ label : Tree,
          label.isLabel = true → (label.IsStray tree ↔ label.IsMisplaced region))
          regions compiled.trees) ∧
      ∃ tree ∈ compiled.trees, ∃ label : Tree,
        label.isLabel = true ∧ label.name = "j" ∧ label.IsStray tree := by
  intro options source
  have hcompiles : (resultOf options source "f.ms").toOption.any (fun c => c.trees.any fun tree =>
      tree.parts.any fun u => u.inner.any fun v => v.isLabel && v.name = "j") = true := by
    decide +kernel
  obtain ⟨compiled, hcompiled, htests⟩ := (Option.any_eq_true _ _).mp hcompiles
  have hcompiled := eq_ok_of_toOption hcompiled
  simp only [List.any_eq_true, Bool.and_eq_true, decide_eq_true_eq] at htests
  obtain ⟨tree, htree, u, hu, label, hmem, hlabel, hname⟩ := htests
  exact ⟨rfl, compiled, hcompiled, compile_keeps_misplaced_labels rfl hcompiled,
    tree, htree, label, hlabel, hname, u, hu, hmem⟩

/-- In the tree of `1 k: 2` a label is joined with numbers. -/
theorem compile_label_behind_number :
    ¬∀ (options : Options) (source file : String) (compiled : Compiled), options.finish = true →
      resultOf options source file = .ok compiled → ∀ tree ∈ compiled.trees, tree.isLabel = false ∧
        ∀ label : Tree, label.isLabel = true → ¬label.IsStray tree := by
  intro hclaim
  have hcompiles : (resultOf {} "1 k: 2" "f.ms").toOption.any (fun c => c.trees.any fun tree =>
      tree.parts.any fun u => u.inner.any Tree.isLabel) = true := by decide +kernel
  obtain ⟨compiled, hcompiled, htests⟩ := (Option.any_eq_true _ _).mp hcompiles
  simp only [List.any_eq_true] at htests
  obtain ⟨tree, htree, u, hu, label, hmem, hlabel⟩ := htests
  have hnone := (hclaim {} _ _ compiled rfl (eq_ok_of_toOption hcompiled) tree htree).2
  exact hnone label hlabel ⟨u, hu, hmem⟩

end Compiler

end LineScript
