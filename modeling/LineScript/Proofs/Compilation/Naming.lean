import LineScript.Proofs.Compilation.Outcome
import LineScript.Proofs.Finishing.Closed
import LineScript.Proofs.Token.Wording

/-!
# Names in compiled trees

A compiled tree has only such names and integers as a script can spell: a variable has a name, a
function is called by a word, be it one that the script spells or that an operator stands for, and
no integer is negative (`all_isNamed_of_resultOf`).
-/

namespace LineScript

/-! ### Words -/

/-- The text is a name and no keyword. -/
def IsWord (s : String) : Prop :=
  ∃ name : VarName, s = name.text ∧ TokenKind.ofWord name.text = .word

lemma isWord_of_mem_names : ∀ s ∈ Operator.names ++ Tree.structuralNames, IsWord s := by
  have hall : ∀ s ∈ Operator.names ++ Tree.structuralNames, VarName.isNameText s = true ∧
      TokenKind.ofWord s = .word := by decide +kernel
  intro s hs
  obtain ⟨hname, hword⟩ := hall s hs
  obtain ⟨name, rfl, -⟩ := VarName.exists_of_isNameText hname
  exact ⟨name, rfl, hword⟩

/-! ### Trees -/

namespace Tree

open Grouping Reduction Traced

/-- The name or the integer that the tree carries can be spelled. -/
def IsNamed : Tree → Prop
  | .variable _ n => ∃ name : VarName, n = name.text
  | .identifier _ n | .call _ n _ => IsWord n
  | .literal _ (.int n) => 0 ≤ n
  | _ => True

lemma isNamed_of_represents {t : Token} {ts : List Token} {u : Tree} (h : Represents t ts u)
    (ht : t.kind = .eof ∨ ∃ text, Spells t.kind t.value text) : u.IsNamed := by
  have hspells : t.kind ≠ .eof → ∃ text, Spells t.kind t.value text := ht.resolve_left
  have hname : t.kind = .word → IsWord t.name := by
    intro hkind
    obtain ⟨text, htext⟩ := hspells (by simp [hkind])
    obtain ⟨name, hvalue, hword⟩ := htext.exists_of_word hkind
    exact ⟨name, congrArg Value.plain hvalue, hword⟩
  cases h with
  | label => trivial
  | call hkind => exact hname hkind
  | group hopens =>
    have hall : ∀ kind, ∀ opened ∈ opens? kind, opened.2 ∈ structuralNames := by
      intro kind
      cases kind <;> simp [opens?, structuralNames]
    exact isWord_of_mem_names _ (List.mem_append_right _ (hall t.kind _ hopens))
  | symbol => trivial
  | «variable» hkind =>
    obtain ⟨text, htext⟩ := hspells (by simp [hkind])
    obtain ⟨name, hvalue⟩ := htext.exists_of_variable hkind
    exact ⟨name, congrArg Value.plain hvalue⟩
  | identifier hkind => exact hname hkind
  | literal hv =>
    rename_i v _
    cases v with
    | int n =>
      obtain ⟨hkind, hvalue⟩ : t.kind ≠ .eof ∧ t.value = .int n := by
        unfold constant? at hv
        split at hv <;> simp_all
      obtain ⟨text, htext⟩ := hspells hkind
      rw [hvalue] at htext
      exact htext.nonneg_of_int
    | _ => trivial

lemma closed_isNamed (d : Dialect) : Closed d IsNamed (All IsNamed) where
  label p n _ := all_iff.mpr ⟨trivial, by simp [children]⟩
  identifier p n h := all_iff.mpr ⟨h, by simp [children]⟩
  literal p v h := all_iff.mpr ⟨h, by simp [children]⟩
  atName p n h := all_iff.mpr ⟨h, by simp [children]⟩
  void p := all_iff.mpr ⟨trivial, by simp [children]⟩
  operation p name ts hname hts :=
    all_iff.mpr ⟨isWord_of_mem_names name (List.mem_append_left _ hname), hts⟩
  entry p q name v hlabel hv := all_iff.mpr ⟨trivial, by simpa [children] using ⟨hlabel, hv⟩⟩
  bareCall p name ts _ hname hts := by
    have hargument : (bareArgument ts).All IsNamed := all_bareArgument (fun _ _ => trivial) hts
    exact all_iff.mpr ⟨hname.self, by simpa [children]⟩
  join p ts hts := all_iff.mpr ⟨trivial, hts⟩
  bracket p t ht := all_iff.mpr ⟨trivial, by simpa [children]⟩
  brace p t ht := all_iff.mpr ⟨trivial, by simpa [children]⟩
  call p name ls ts _ hname hts := all_iff.mpr ⟨hname, hts⟩

end Tree

/-! ### Scripts -/

namespace Compiler

open Grouping Traced

variable {options : Options} {source file : String} {n : Nat} {regions : List Tree}
  {compiled : Compiled}

lemma all_isNamed_of_regionsOf (h : regionsOf options source file = .ok (n, regions)) :
    ∀ region ∈ regions, region.All Tree.IsNamed := by
  obtain ⟨us, last, hts, hlast, hus, hrs⟩ := exists_tokens_of_regionsOf h
  have hreads := tokens_eq_ok_iff.mp hts
  have hlist : ∀ l : Siblings, l.call.IsNamed := fun l =>
    isWord_of_mem_names Tree.listName (List.mem_append_right _ List.mem_cons_self)
  refine all_of_represents hlist hlast hus (fun before t rest u hsplit hu => ?_) hrs
  exact Tree.isNamed_of_represents hu (hreads.exists_spells t (by simp [hsplit]))

/-- Every name and every integer in a compiled tree can be spelled. -/
theorem all_isNamed_of_resultOf (h : resultOf options source file = .ok compiled) :
    ∀ t ∈ compiled.trees, t.All Tree.IsNamed := by
  obtain ⟨n, regions, hregions, htrees⟩ := exists_regions_of_resultOf h
  obtain ⟨ts, hshape⟩ := isRegion_of_regionsOf hregions
  refine Tree.forall_of_forall₂ (Tree.forall₂_imp_of_mem htrees fun region hregion t ht => ?_)
  have hnamed := all_isNamed_of_regionsOf hregions region hregion
  unfold treat at ht
  split_ifs at ht
  · exact (Tree.closed_isNamed _).of_result_finish (hshape region hregion) hnamed ht
  · obtain rfl := Except.ok.inj ht
    exact hnamed

end Compiler

end LineScript
