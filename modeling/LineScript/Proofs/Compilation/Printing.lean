import LineScript.Proofs.Compilation.Naming
import LineScript.Proofs.Tree.Printing

/-!
# Printed trees of compiled sources

Every name in a compiled tree is a word or the spelling of an operator and every constant is written
between quotes or with digits, so none of them has a line feed. A label is the exception: its name
may be a string of the source, which is printed without quotes, line feeds included. A tree is
therefore printed with one line for each node and one more for each line feed in a label
(`compile_prints_nodes`).
-/

namespace LineScript

open Text

/-! ### Line feeds in tokens -/

lemma VarName.lineFeeds_text (name : VarName) : lineFeeds name.text = 0 := by
  rw [VarName.text, lineFeeds_ofList, List.count_eq_zero]
  intro hmem
  exact absurd (name.isNameChar_chars _ hmem) (by decide)

lemma lineFeeds_of_isWord {s : String} (h : IsWord s) : lineFeeds s = 0 := by
  obtain ⟨name, rfl, -⟩ := h
  exact name.lineFeeds_text

/-- Only strings have line feeds. -/
lemma Spells.lineFeeds_plain {kind : TokenKind} {value : Value} {text : List Char}
    (h : Spells kind value text) (hkind : kind ≠ .string) : lineFeeds value.plain = 0 := by
  cases h with
  | word name | atName name => exact name.lineFeeds_text
  | string => exact absurd rfl hkind
  | @delimiter c kind h =>
    have hc : '\n' ≠ c := by
      rintro rfl
      cases h
    rw [Value.plain, lineFeeds_ofList, List.count_eq_zero]
    simpa using hc
  | symbol h =>
    have hall : ∀ s ∈ Operator.known, lineFeeds s = 0 := by decide
    exact hall _ (List.contains_iff_mem.mp h)
  | _ => exact Value.lineFeeds_plain fun s h => by cases h

/-! ### Trees -/

namespace Tree

open Grouping Reduction Traced

/-- A name with a line feed is that of a string directly before a colon. -/
def IsStringLabel (ts : List Token) (name : String) : Prop :=
  lineFeeds name ≠ 0 → ∃ before t colon behind, ts = before ++ t :: colon :: behind ∧
    t.kind = .string ∧ t.name = name ∧ colon.kind = .colon

lemma feedsInLabels_of_represents {before ts : List Token} {t : Token} {u : Tree}
    (h : Represents t ts u) (ht : t.kind = .eof ∨ ∃ text, Spells t.kind t.value text) :
    u.FeedsInLabels (IsStringLabel (before ++ t :: ts)) := by
  have hname : t.kind ≠ .eof → t.kind ≠ .string → lineFeeds t.name = 0 := fun heof hstring =>
    (ht.resolve_left heof).elim fun _ hspells => hspells.lineFeeds_plain hstring
  cases h with
  | @label c rest hcan hc =>
    intro hfeeds
    refine ⟨before, t, c, rest, rfl, ?_, rfl, hc⟩
    by_contra hstring
    have heof : t.kind ≠ .eof := fun heof => by simp [heof, canLabel] at hcan
    exact hfeeds (hname heof hstring)
  | call hkind | identifier hkind => exact hname (by simp [hkind]) (by simp [hkind])
  | group hopens =>
    have hall : ∀ kind, ∀ opened ∈ opens? kind, lineFeeds opened.2 = 0 := by
      intro kind
      cases kind <;> simp [opens?] <;> rfl
    exact hall t.kind _ hopens
  | symbol hkind => exact hname (by simp [hkind]) (by simp [hkind])
  | «variable» hkind =>
    have htext : lineFeeds ("@" ++ t.name) = 0 := by
      rw [lineFeeds_append, hname (by simp [hkind]) (by simp [hkind])]
      rfl
    exact htext
  | literal hv => exact Value.lineFeeds_render _

lemma closed_feedsInLabels (d : Dialect) (P : String → Prop) :
    Closed d (FeedsInLabels P) (All (FeedsInLabels P)) where
  label p n h := all_iff.mpr ⟨h, by simp [children]⟩
  identifier p n h := all_iff.mpr ⟨h, by simp [children]⟩
  literal p v h := all_iff.mpr ⟨h, by simp [children]⟩
  atName p n h := all_iff.mpr ⟨h, by simp [children]⟩
  void p := all_iff.mpr ⟨feedsInLabels_void p, by simp [children]⟩
  operation p name ts hname hts :=
    all_iff.mpr ⟨lineFeeds_of_isWord (isWord_of_mem_names name (List.mem_append_left _ hname)), hts⟩
  entry p q name v hlabel hv := all_iff.mpr ⟨rfl, by simpa [children] using ⟨hlabel, hv⟩⟩
  bareCall p name ts _ hname hts := by
    have hargument : (bareArgument ts).All (FeedsInLabels P) :=
      all_bareArgument (fun p ts => feedsInLabels_join p .string ts) hts
    exact all_iff.mpr ⟨hname.self, by simpa [children]⟩
  join p ts hts := all_iff.mpr ⟨feedsInLabels_join p d.mode ts, hts⟩
  bracket p t ht := all_iff.mpr ⟨feedsInLabels_bracket p t, by simpa [children]⟩
  brace p t ht := all_iff.mpr ⟨feedsInLabels_brace p t, by simpa [children]⟩
  call p name ls ts _ hname hts := all_iff.mpr ⟨hname, hts⟩

end Tree

/-! ### Scripts -/

namespace Compiler

open Grouping Traced

variable {options : Options} {source file : String} {compiled : Compiled} {tree : Tree}

/-- Only labels of strings bring line feeds into a compiled tree. -/
lemma all_feedsInLabels_of_resultOf (h : resultOf options source file = .ok compiled) :
    ∃ ts, tokens source file = .ok ts ∧
      ∀ t ∈ compiled.trees, t.All (Tree.FeedsInLabels (Tree.IsStringLabel ts)) := by
  obtain ⟨n, regions, hregions, htrees⟩ := exists_regions_of_resultOf h
  obtain ⟨us, last, hts, hlast, hus, hrs⟩ := exists_tokens_of_regionsOf hregions
  have hall : ∀ region ∈ regions,
      region.All (Tree.FeedsInLabels (Tree.IsStringLabel (us ++ [last]))) := by
    refine all_of_represents (fun l => (rfl : lineFeeds Tree.listName = 0)) hlast hus
      (fun before t rest u hsplit hu => ?_) hrs
    rw [hsplit]
    exact Tree.feedsInLabels_of_represents hu
      ((tokens_eq_ok_iff.mp hts).exists_spells t (by simp [hsplit]))
  refine ⟨us ++ [last], hts, ?_⟩
  refine Tree.forall_of_forall₂ (Tree.forall₂_imp_of_mem htrees fun region hregion t ht => ?_)
  have hshape := isRegion_of_mem_regions hlast hus hrs region hregion
  unfold treat at ht
  split_ifs at ht
  · exact (Tree.closed_feedsInLabels _ _).of_result_finish hshape (hall region hregion) ht
  · obtain rfl := Except.ok.inj ht
    exact hall region hregion

/-- A compiled tree without integers of too many digits is rendered with the line feeds in the names
of its labels, and printed with the lines of its nodes; a label with a line feed comes from a
string. -/
theorem compile_prints_nodes (h : resultOf options source file = .ok compiled)
    (htree : tree ∈ compiled.trees) :
    ((tree.parts.any Tree.isLarge = true ∧ tree.render = .error (.numeral .tooLarge) ∧
        tree.printed = .error (.numeral .tooLarge)) ∨
      ∃ text printed, tree.parts.any Tree.isLarge = false ∧
        tree.render = .ok text ∧ tree.printed = .ok printed ∧
        lineFeeds text = tree.labelFeeds ∧
        printed = "\n".intercalate ((tree.nodesAt 0).map Tree.lineOf) ∧
        (printed.toList.splitOn '\n').length = (tree.nodesAt 0).length + tree.labelFeeds ∧
        (tree.labelFeeds = 0 → printed.toList.splitOn '\n' =
          (tree.nodesAt 0).map fun node => (Tree.lineOf node).toList)) ∧
    ∃ ts, tokens source file = .ok ts ∧
      ∀ p name, .label p name ∈ tree.parts → Tree.IsStringLabel ts name := by
  obtain ⟨ts, hts, hall⟩ := all_feedsInLabels_of_resultOf h
  have htreeFeeds := hall tree htree
  refine ⟨?_, ts, hts, fun p name hlabel => htreeFeeds _ hlabel⟩
  rcases Tree.render_cases htreeFeeds with hlarge | ⟨hlarge, hrender, hprinted⟩
  · exact Or.inl hlarge
  · refine Or.inr ⟨_, _, hlarge, hrender, hprinted, Tree.lineFeeds_text htreeFeeds,
      by rw [Tree.outline_eq], Tree.length_splitOn_outline htreeFeeds 0, fun hfeeds => ?_⟩
    exact Tree.splitOn_outline_of_labelFeeds_eq_zero htreeFeeds hfeeds 0

/-- The seven nodes of an entry are printed with eight lines, as its label has a line feed. The line
feed of the string within has a letter. -/
theorem compile_prints_entry_nodes :
    let source := "'a\\nb': [f('c\\nd', 1 + 2)]"
    ∃ compiled tree, resultOf {} source "f.ms" = .ok compiled ∧ tree ∈ compiled.trees ∧
      tree.text = "centry(a\nb, [f('c\\nd', add(1, 2))])" ∧ tree.labelFeeds = 1 ∧
      (tree.nodesAt 0).map Prod.fst = [0, 1, 2, 3, 3, 4, 4] ∧
      ((tree.parts.any Tree.isLarge = true ∧ tree.render = .error (.numeral .tooLarge) ∧
          tree.printed = .error (.numeral .tooLarge)) ∨
        ∃ text printed, tree.parts.any Tree.isLarge = false ∧
          tree.render = .ok text ∧ tree.printed = .ok printed ∧
          lineFeeds text = tree.labelFeeds ∧
          printed = "\n".intercalate ((tree.nodesAt 0).map Tree.lineOf) ∧
          (printed.toList.splitOn '\n').length = (tree.nodesAt 0).length + tree.labelFeeds ∧
          (tree.labelFeeds = 0 → printed.toList.splitOn '\n' =
            (tree.nodesAt 0).map fun node => (Tree.lineOf node).toList)) ∧
      ∃ ts, tokens source "f.ms" = .ok ts ∧
        ∀ p name, .label p name ∈ tree.parts → Tree.IsStringLabel ts name := by
  intro source
  have hcompiles : ((resultOf {} source "f.ms").toOption.bind fun c => c.trees.head?).any
      (fun tree => tree.text = "centry(a\nb, [f('c\\nd', add(1, 2))])" && tree.labelFeeds = 1 &&
        (tree.nodesAt 0).map Prod.fst = [0, 1, 2, 3, 3, 4, 4]) = true := by decide +kernel
  obtain ⟨tree, htree, htests⟩ := (Option.any_eq_true _ _).mp hcompiles
  obtain ⟨compiled, hcompiled, htree⟩ := Option.bind_eq_some_iff.mp htree
  have hcompiled := eq_ok_of_toOption hcompiled
  have htree := List.mem_of_head? htree
  simp only [Bool.and_eq_true, decide_eq_true_eq] at htests
  obtain ⟨⟨htext, hfeeds⟩, hlevels⟩ := htests
  exact ⟨compiled, tree, hcompiled, htree, htext, hfeeds, hlevels,
    compile_prints_nodes hcompiled htree⟩

/-- The tree of `'a\nb': 1` is rendered on two lines, and its two nodes are printed on three. -/
theorem compile_renders_label_on_two_lines :
    ¬∀ (options : Options) (source file : String) (compiled : Compiled) (tree : Tree)
      (text printed : String), resultOf options source file = .ok compiled →
      tree ∈ compiled.trees → tree.render = .ok text → tree.printed = .ok printed →
      '\n' ∉ text.toList ∧ printed.toList.splitOn '\n' =
        (tree.nodesAt 0).map fun node => (Tree.lineOf node).toList := by
  intro hclaim
  have hcompiles : ((resultOf {} "'a\\nb': 1" "f.ms").toOption.bind fun c => c.trees.head?).any
      (fun tree => tree.textFault?.isNone && decide ('\n' ∈ tree.text.toList)) = true := by
    decide +kernel
  obtain ⟨tree, htree, htests⟩ := (Option.any_eq_true _ _).mp hcompiles
  obtain ⟨compiled, hcompiled, htree⟩ := Option.bind_eq_some_iff.mp htree
  obtain ⟨hfault, hfeed⟩ : tree.textFault? = none ∧ '\n' ∈ tree.text.toList := by simpa using htests
  have hlines := hclaim {} _ _ compiled tree tree.text _ (eq_ok_of_toOption hcompiled)
    (List.mem_of_head? htree) (by rw [Tree.render, hfault]) (by rw [Tree.printed, hfault])
  exact hlines.1 hfeed

end Compiler

end LineScript
