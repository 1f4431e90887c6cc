import LineScript.Proofs.Compilation.Outcome
import LineScript.Proofs.Finishing.Closed
import LineScript.Proofs.Finishing.Relocation

/-!
# The two ways to join

The mode of a compilation says how trees are joined that are left next to each other, and it says
nothing else: a source is compiled in both modes with the same record, the same diagnostics and the
same trees but for the joins (`compile_in_both_modes`). Only the argument of a function that is
called by its bare name is joined as a text in either mode.
-/

namespace LineScript

/-! ### Computations whose places stay -/

namespace Step

lemma relocate_id (s : Step) : s.relocate id = s := by
  cases s <;> rfl

end Step

lemma Failure.relocate_id (f : Failure) : f.relocate id = f := by
  cases f <;> simp [relocate, Diagnostic.relocate]

namespace Traced

variable {α β : Type}

/-- The computation with its result replaced. -/
def mapResult (move : α → β) (x : Traced α) : Traced β := ⟨x.steps, x.result.map move⟩

lemma relocate_id (move : α → β) (x : Traced α) : x.relocate id move = x.mapResult move := by
  have hstep : Step.relocate id = id := funext Step.relocate_id
  have hfailure : Failure.relocate id = id := funext Failure.relocate_id
  obtain ⟨steps, result⟩ := x
  cases result <;> simp [relocate, mapResult, hstep, hfailure, Except.map, Except.mapError]

end Traced

/-! ### Compilation in another mode -/

/-- The options with the way to join exchanged. -/
def Options.recast (μ : JoinMode → JoinMode) (o : Options) : Options := { o with mode := μ o.mode }

/-- The result with its trees replaced. -/
def Compiled.mapTrees (move : Tree → Tree) (c : Compiled) : Compiled :=
  { c with trees := c.trees.map move }

namespace Compiler

open Traced Grouping

variable {options : Options} {μ : JoinMode → JoinMode} {c : Collector} {regions : List Tree}
  {source file : String} {n : Nat}

lemma finishRegions_recast (hμ : μ .string = .string) (d : Dialect) (c : Collector)
    (regions : List Tree) :
    finishRegions (d.recast μ) c (regions.map (Tree.recast id μ)) =
      ((finishRegions d c regions).1,
        (finishRegions d c regions).2.mapResult (List.map (Tree.recast id μ))) := by
  have hfinish : ∀ region : Tree, (region.recast id μ).finish (d.recast μ) =
      (region.finish d).mapResult (Tree.recast id μ) := fun region => by
    rw [Tree.finish_recast hμ, relocate_id]
  induction regions generalizing c with
  | nil => rfl
  | cons region regions ih =>
    have hresult := congrArg Traced.result (hfinish region)
    have hsteps := congrArg Traced.steps (hfinish region)
    cases hregion : (region.finish d).result with
    | ok tree =>
      have hmapped : ((region.recast id μ).finish (d.recast μ)).result =
          .ok (tree.recast id μ) := by rw [hresult, mapResult, hregion]; rfl
      rw [List.map_cons, finishRegions_cons_of_ok hregion, finishRegions_cons_of_ok hmapped, ih,
        hsteps]
      cases hothers : (finishRegions d c regions).2.result <;>
        simp [mapResult, hothers, Except.map]
    | error f =>
      have hmapped : ((region.recast id μ).finish (d.recast μ)).result = .error f := by
        rw [hresult, mapResult, hregion]; rfl
      cases f with
      | diagnostic e =>
        rcases hadd : c.add e with ⟨c', goesOn⟩
        cases goesOn <;>
          simp [finishRegions, hregion, hmapped, hadd, ih, hsteps, mapResult, Except.map]
      | _ => simp [finishRegions, hregion, hmapped, hsteps, mapResult, Except.map]

/-- Nothing is joined before regions are finished. -/
lemma ne_join_of_isRegion {registry : Registry} {tokens : List Token} {region : Tree}
    (h : IsRegion (Bears registry tokens) region) :
    region.All fun u => ∀ p m ts, u ≠ .join p m ts := by
  refine h.all (by simp) fun u hu => ?_
  rcases hu.cases with
    ⟨p, n, rfl⟩ | ⟨v, -, -, f, rfl⟩ | ⟨p, n, hn, rfl⟩ | ⟨p, v, rfl⟩ | ⟨p, n, rfl⟩ <;>
    simp [Tree.All, Tree.parts]

lemma treesOf_recast (hμ : μ .string = .string) (c : Collector)
    (h : ∀ region ∈ regions, region.All fun u => ∀ p m ts, u ≠ .join p m ts) :
    treesOf (options.recast μ) c regions = ((treesOf options c regions).1,
      (treesOf options c regions).2.mapResult (List.map (Tree.recast id μ))) := by
  have hregions : regions.map (Tree.recast id μ) = regions := by
    refine (List.map_congr_left fun region hregion => ?_).trans (List.map_id regions)
    exact Tree.recast_eq_self fun u hu p m ts heq => absurd heq (h region hregion u hu p m ts)
  have hfinish : (options.recast μ).finish = options.finish := rfl
  unfold treesOf
  rw [hfinish]
  split_ifs
  · have hall := finishRegions_recast hμ options.dialect c regions
    rw [hregions] at hall
    exact hall
  · exact congrArg (fun trees => (c, (pure trees : Traced (List Tree)))) hregions.symm

lemma conclude_mapResult (c : Collector) (file : String) (n m : Nat) (move : Tree → Tree)
    (x : Traced (List Tree)) : conclude c file n m (x.mapResult (List.map move)) =
      (conclude c file n m x).mapResult (Compiled.mapTrees move) := by
  obtain ⟨steps, result⟩ := x
  cases result with
  | error f => rfl
  | ok trees =>
    unfold conclude
    cases c.verdict <;> rfl

/-- A source is compiled in the same way, but for the joins. -/
theorem compile_recast (hμ : μ .string = .string) (options : Options) (c : Collector)
    (source file : String) :
    compile ⟨options.recast μ, c⟩ source file =
      (⟨options.recast μ, (compile ⟨options, c⟩ source file).1.collector⟩,
        (compile ⟨options, c⟩ source file).2.mapResult (Compiled.mapTrees (Tree.recast id μ))) := by
  have hsame : regionsOf (options.recast μ) source file = regionsOf options source file := rfl
  unfold compile
  simp only [hsame]
  cases hregions : regionsOf options source file with
  | ok read =>
    obtain ⟨n, regions⟩ := read
    obtain ⟨ts, hshape⟩ := isRegion_of_regionsOf hregions
    simp only [treesOf_recast hμ _ fun r hr => ne_join_of_isRegion (hshape r hr),
      conclude_mapResult]
    rfl
  | error f =>
    cases f with
    | diagnostic d => exact congrArg (Prod.mk _) (conclude_mapResult _ file 0 0 _ (pure []))
    | _ => rfl

end Compiler

/-! ### Where texts are joined -/

namespace Tree

open Reduction

/-- The tree with every join made one of texts. -/
def sequential : Tree → Tree := recast id fun _ => .string

lemma kind?_sequential (t : Tree) : t.sequential.kind? ≠ some .concat := by
  cases t with
  | join p m ts => simp [sequential, kind?]
  | _ => simp [sequential, recast, kind?]

lemma children_sequential (t : Tree) : t.sequential.children = t.children.map sequential := by
  cases t <;> simp [sequential, recast, children]

lemma all_sequential (t : Tree) : t.sequential.All fun u => u.kind? ≠ some .concat := by
  induction t using children_induct with
  | h t ih =>
    refine all_iff.mpr ⟨kind?_sequential t, ?_⟩
    rw [children_sequential]
    exact List.forall_mem_map.mpr ih

/-- Texts are joined in the argument of a call only, and the call comes from a bare function name of
the region. -/
structure JoinsInBareCalls (region t : Tree) : Prop where
  kind?_ne : t.kind? ≠ some .sequentialConcat
  argument : ∀ u ∈ t.parts, ∀ v ∈ u.children, v.kind? = some .sequentialConcat →
    ∃ p name, u = .call p name [v] ∧ .identifier p name ∈ region.parts

/-- Texts that are joined directly within the tree are the argument of a call, which comes from a
bare function name of the region, and so does the tree if it is such a name. -/
structure HasOwnJoins (region t : Tree) : Prop where
  argument : ∀ v ∈ t.children, v.kind? = some .sequentialConcat →
    ∃ p name, t = .call p name [v] ∧ .identifier p name ∈ region.parts
  identifier : ∀ p name, t = .identifier p name → .identifier p name ∈ region.parts

variable {region t : Tree}

lemma hasOwnJoins_of_children (hname : ∀ p name, t ≠ .identifier p name)
    (h : ∀ u ∈ t.children, u.kind? ≠ some .sequentialConcat ∧ u.All (HasOwnJoins region)) :
    t.All (HasOwnJoins region) :=
  all_iff.mpr ⟨⟨fun v hv hjoin => absurd hjoin (h v hv).1,
    fun p name heq => absurd heq (hname p name)⟩, fun u hu => (h u hu).2⟩

lemma closed_hasOwnJoins (region : Tree) (registry : Registry) :
    Closed ⟨registry, .list⟩ (· ∈ region.parts) fun t =>
      t.kind? ≠ some .sequentialConcat ∧ t.All (HasOwnJoins region) where
  label p n _ := ⟨by simp [kind?], hasOwnJoins_of_children (by simp) (by simp [children])⟩
  identifier p n h := by
    refine ⟨by simp [kind?], all_iff.mpr ⟨⟨by simp [children], ?_⟩, by simp [children]⟩⟩
    rintro q m ⟨⟩
    exact h
  literal p v _ := ⟨by simp [kind?], hasOwnJoins_of_children (by simp) (by simp [children])⟩
  atName p n _ := ⟨by simp [kind?], hasOwnJoins_of_children (by simp) (by simp [children])⟩
  void p := ⟨by simp [kind?], hasOwnJoins_of_children (by simp) (by simp [children])⟩
  operation p name ts _ hts := ⟨by simp [kind?], hasOwnJoins_of_children (by simp) hts⟩
  entry p q name v hlabel hv :=
    ⟨by simp [kind?], hasOwnJoins_of_children (by simp) (by simpa [children] using ⟨hlabel, hv⟩)⟩
  bareCall p name ts _ hname hts := by
    have hargument : (bareArgument ts).All (HasOwnJoins region) := by
      unfold bareArgument
      split
      · exact (hts _ List.mem_cons_self).2
      · exact hasOwnJoins_of_children (by simp) hts
    refine ⟨by simp [kind?], all_iff.mpr ⟨⟨fun v hv _ => ?_, by simp⟩, by simpa [children]⟩⟩
    obtain rfl := List.mem_singleton.mp hv
    exact ⟨p, name, rfl, hname.2.self.identifier p name rfl⟩
  join p ts hts := ⟨by simp [kind?], hasOwnJoins_of_children (by simp) hts⟩
  bracket p t ht := ⟨by simp [kind?], hasOwnJoins_of_children (by simp) (by simpa [children])⟩
  brace p t ht := ⟨by simp [kind?], hasOwnJoins_of_children (by simp) (by simpa [children])⟩
  call p name ls ts _ _ hts := ⟨by simp [kind?], hasOwnJoins_of_children (by simp) hts⟩

end Tree

namespace Compiler

open Traced Grouping

variable {options : Options} {region tree : Tree}

/-- Where trees are joined as lists, texts are joined in arguments of bare function names only. -/
lemma joinsInBareCalls_of_result_treat (hmode : options.mode = .list) {tokens : List Token}
    (hregion : IsRegion (Bears options.functions tokens) region)
    (h : (treat options region).result = .ok tree) : Tree.JoinsInBareCalls region tree := by
  unfold treat at h
  split_ifs at h
  · have hdialect : options.dialect = ⟨options.functions, .list⟩ := by rw [Options.dialect, hmode]
    rw [hdialect] at h
    obtain ⟨hkind, hall⟩ :=
      (Tree.closed_hasOwnJoins region _).of_result_finish hregion (fun _ hu => hu) h
    exact ⟨hkind, fun u hu => (hall u hu).argument⟩
  · -- what is not finished has no joins at all
    obtain rfl := Except.ok.inj h
    have hkind : region.All fun u => u.kind? ≠ some .sequentialConcat := fun u hu hjoin => by
      have hne := ne_join_of_isRegion hregion u hu
      cases u with
      | join p m ts => exact hne p m ts rfl
      | _ => cases hjoin
    exact ⟨hkind.self, fun u hu v hv hjoin => absurd hjoin (hkind.children u hu v hv)⟩

/-- In both modes a source has the same record and the same diagnostics or, but for the joins, the
same trees. All joins are of texts in the one mode, and in the other those alone that are the
arguments of bare function names. -/
theorem compile_in_both_modes (options : Options) (source file : String) :
    let texts : Options := { options with mode := .string }
    let lists : Options := { options with mode := .list }
    errorsOf texts source file = errorsOf lists source file ∧
    ((new texts).compile source file).2.steps = ((new lists).compile source file).2.steps ∧
    ((∃ failure, resultOf texts source file = .error failure ∧
        resultOf lists source file = .error failure) ∨
      ∃ s l, resultOf texts source file = .ok s ∧ resultOf lists source file = .ok l ∧
        s.file = l.file ∧ s.tokenCount = l.tokenCount ∧ s.regionCount = l.regionCount ∧
        s.tally = l.tally ∧ s.warnings = l.warnings ∧ s.trees = l.trees.map Tree.sequential ∧
        (∀ t ∈ s.trees, t.All fun u => u.kind? ≠ some .concat) ∧
        ∃ n regions, regionsOf lists source file = .ok (n, regions) ∧
          List.Forall₂ Tree.JoinsInBareCalls regions l.trees) := by
  intro texts lists
  have hcompile :=
    compile_recast (μ := fun _ => .string) rfl lists (new lists).collector source file
  have htexts : (new texts).compile source file =
    (⟨texts, ((new lists).compile source file).1.collector⟩,
      ((new lists).compile source file).2.mapResult (Compiled.mapTrees Tree.sequential)) := hcompile
  have hresult : resultOf texts source file =
      (resultOf lists source file).map (Compiled.mapTrees Tree.sequential) :=
    congrArg (fun answer => answer.2.result) htexts
  refine ⟨congrArg (fun answer => answer.1.collector.collected) htexts,
    congrArg (fun answer => answer.2.steps) htexts, ?_⟩
  cases hl : resultOf lists source file with
  | error failure => exact Or.inl ⟨failure, by rw [hresult, hl]; rfl, rfl⟩
  | ok l =>
    refine Or.inr ⟨l.mapTrees Tree.sequential, l, by rw [hresult, hl]; rfl, rfl, rfl, rfl, rfl, rfl,
      rfl, rfl, ?_, ?_⟩
    · exact List.forall_mem_map.mpr fun t _ => t.all_sequential
    · obtain ⟨n, regions, hregions, htrees⟩ := exists_regions_of_resultOf hl
      obtain ⟨ts, hshape⟩ := isRegion_of_regionsOf hregions
      exact ⟨n, regions, hregions, Tree.forall₂_imp_of_mem htrees fun region hregion t ht =>
        joinsInBareCalls_of_result_treat rfl (hshape region hregion) ht⟩

end Compiler

end LineScript
