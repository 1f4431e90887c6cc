import LineScript.Proofs.Finishing.Closed
import LineScript.Proofs.Token.Reading
import LineScript.Registry.Builtin

/-!
# Finished trees are in normal form

A finished tree has no symbol and no call that holds structure, at any depth, if function names
cannot call one. There is nothing left to do in such a tree: finishing it again takes no step.
-/

namespace LineScript

namespace Tree

open Reduction Grouping

/-- A tree that may occur in a normal form where names are callable as in a registry. -/
def IsFinal (registry : Registry) : Tree → Prop
  | .hole | .symbol .. => False
  | .identifier _ name => registry.isCallable name = true
  | .call _ name _ => name ∉ structuralNames
  | _ => True

/-- If the tree is a function name, it can be called. -/
def IsCallable (registry : Registry) (t : Tree) : Prop :=
  ∀ p name, t = .identifier p name → registry.isCallable name = true

/-- All parts of the tree may stay as they are. -/
def IsNormal (registry : Registry) (t : Tree) : Prop :=
  ∀ u ∈ t.parts, u.IsFinal registry

/-- No name that can be called is one of a call that holds structure. -/
def HidesStructure (registry : Registry) : Prop :=
  ∀ name, registry.isCallable name = true → name ∉ structuralNames

variable {registry : Registry} {d : Dialect} {p : Location} {name : String} {t u : Tree}
  {ts us : List Tree}

lemma isNormal_call_iff : IsNormal registry (.call p name ts) ↔
    name ∉ structuralNames ∧ ∀ t ∈ ts, IsNormal registry t :=
  all_iff

lemma isNormal_join_iff {mode : JoinMode} : IsNormal registry (.join p mode ts) ↔
    ∀ t ∈ ts, IsNormal registry t :=
  all_iff.trans (and_iff_right trivial)

lemma isNormal_entry_iff {l v : Tree} : IsNormal registry (.entry p l v) ↔
    IsNormal registry l ∧ IsNormal registry v :=
  all_iff.trans (by simp [children, IsFinal, IsNormal, All])

lemma isNormal_bracket_iff : IsNormal registry (.bracket p t) ↔ IsNormal registry t :=
  all_iff.trans (by simp [children, IsFinal, IsNormal, All])

lemma isNormal_brace_iff : IsNormal registry (.brace p t) ↔ IsNormal registry t :=
  all_iff.trans (by simp [children, IsFinal, IsNormal, All])

lemma IsNormal.isFinal (h : IsNormal registry t) : t.IsFinal registry :=
  All.self h

/-! ### Nothing is left to do -/

lemma finishList_eq_pure (h : ∀ t ∈ ts, finish d t = pure t) : finishList d ts = pure ts := by
  induction ts with
  | nil => rfl
  | cons t ts ih =>
    rw [finishList, h t List.mem_cons_self, ih fun u hu => h u (List.mem_cons_of_mem _ hu)]
    rfl

lemma finishCall_eq_pure (h : name ∉ structuralNames) (ts : List Tree) :
    finishCall d p name ts = pure (.call p name ts) := by
  simp only [structuralNames, List.mem_cons, List.not_mem_nil, or_false, not_or] at h
  simp only [finishCall, h, if_false]

/-- A tree in normal form is finished without a step. -/
theorem finish_eq_pure (h : IsNormal registry t) (d : Dialect) : finish d t = pure t := by
  induction t with
  | hole => exact absurd h.isFinal id
  | call p name ts ih =>
    obtain ⟨hname, hts⟩ := isNormal_call_iff.mp h
    rw [finish, finishList_eq_pure fun t ht => ih t ht (hts t ht)]
    exact finishCall_eq_pure hname ts
  | entry p l v _ ih =>
    rw [finish, ih (isNormal_entry_iff.mp h).2]
    rfl
  | join p mode ts ih =>
    rw [finish, finishList_eq_pure fun t ht => ih t ht (isNormal_join_iff.mp h t ht)]
    rfl
  | bracket p t ih =>
    rw [finish, ih (isNormal_bracket_iff.mp h)]
    rfl
  | brace p t ih =>
    rw [finish, ih (isNormal_brace_iff.mp h)]
    rfl
  | symbol | label | identifier | literal | «variable» | void => rfl

/-! ### Finishing -/

/-- Normal forms are made of normal forms, if every function name can be called and hides no
structure. -/
lemma closed_isNormal (hd : HidesStructure registry) (d : Dialect) :
    Closed d (IsCallable registry) (IsNormal registry) where
  label p n _ := by simp [IsNormal, parts, IsFinal]
  identifier p n h := by simpa [IsNormal, parts, IsFinal] using h p n rfl
  literal p v _ := by simp [IsNormal, parts, IsFinal]
  atName p n _ := by simp [IsNormal, parts, IsFinal]
  void p := by simp [IsNormal, parts, IsFinal]
  operation p name ts hname hts := by
    have hall : ∀ name ∈ Operator.names, name ∉ structuralNames := by decide
    exact isNormal_call_iff.mpr ⟨hall name hname, hts⟩
  entry p q name v hlabel hv := isNormal_entry_iff.mpr ⟨hlabel, hv⟩
  bareCall p name ts _ hname hts := by
    have hargument : IsNormal registry (bareArgument ts) :=
      all_bareArgument (fun _ _ => trivial) hts
    exact isNormal_call_iff.mpr ⟨hd name hname.isFinal, by simpa using hargument⟩
  join p ts hts := isNormal_join_iff.mpr hts
  bracket p t ht := isNormal_bracket_iff.mpr ht
  brace p t ht := isNormal_brace_iff.mpr ht
  call p name ls ts hname _ hts := isNormal_call_iff.mpr ⟨hname, hts⟩

/-! ### Scripts -/

/-- Only names that can be called are function names. -/
lemma isCallable_of_isRegion {source : List Token} (h : IsRegion (Bears registry source) t) :
    t.All (IsCallable registry) := by
  refine h.all (by rintro p name ts q n ⟨⟩) fun u hu => ?_
  rcases hu.cases with ⟨p, n, rfl⟩ | ⟨v, -, -, f, rfl⟩ | ⟨p, n, hn, rfl⟩ | ⟨p, v, rfl⟩ | ⟨p, n, rfl⟩
  · simp [All, parts, IsCallable]
  · simp [All, parts, IsCallable]
  · simpa [All, parts, IsCallable] using hn
  · simp [All, parts, IsCallable]
  · simp [All, parts, IsCallable]

lemma hidesStructure_builtin : HidesStructure .builtin := by
  have hall : ∀ name ∈ structuralNames, Registry.builtin.isCallable name = false := by decide
  intro name hcallable hname
  rw [hall name hname] at hcallable
  cases hcallable

/-- The finished tree of a region has no symbol and no call that holds structure at any depth, even
if the script spells such a call by itself, and to finish it again changes and counts nothing. -/
theorem finish_reaches_normal_form {source file : String} {ts : List Token} {lines : List String}
    {regions : List Tree} {region tree : Tree} {mode : JoinMode}
    (htokens : tokens source file = .ok ts)
    (hregions : (Source.mk lines .builtin).regions ts = .ok regions) (hregion : region ∈ regions)
    (htree : (region.finish ⟨.builtin, mode⟩).result = .ok tree) :
    (∀ u ∈ tree.parts, u.isSymbol = false ∧
      ∀ p name children, u = .call p name children → name ∉ structuralNames) ∧
    ∀ d, (tree.finish d).result = .ok tree ∧ Tally.ofSteps (tree.finish d).steps = ⟨0, 0, 0⟩ := by
  obtain ⟨us, last, rfl, hlast, hus⟩ := (tokens_eq_ok_iff.mp htokens).exists_last
  have hshape := isRegion_of_mem_regions hlast hus hregions region hregion
  have hnormal : IsNormal .builtin tree :=
    (closed_isNormal hidesStructure_builtin _).of_result_finish hshape
      (isCallable_of_isRegion hshape) htree
  refine ⟨fun u hu => ⟨?_, ?_⟩, fun d => ?_⟩
  · cases u with
    | symbol => exact absurd (hnormal _ hu) id
    | _ => rfl
  · rintro p name children rfl
    exact hnormal _ hu
  · rw [finish_eq_pure hnormal d]
    exact ⟨rfl, rfl⟩

/-- The spelled calls of `p(-1) + [__autoconcat__(@a 2)]` vanish with all others of their names. -/
theorem finish_spelled_groups :
    let place (column : Int) : Location := ⟨"f.ms", 1, column⟩
    let text (kind : TokenKind) (s : String) (column : Int) : Token :=
      ⟨kind, .text s, place column⟩
    let ts := [text .word "p" 1, text .leftParen "(" 2, text .symbol "-" 3,
      ⟨.number, .int 1, place 4⟩, text .rightParen ")" 5, text .symbol "+" 7,
      text .leftBracket "[" 9, text .word "__autoconcat__" 10, text .leftParen "(" 24,
      text .variable "a" 25, ⟨.number, .int 2, place 28⟩, text .rightParen ")" 29,
      text .rightBracket "]" 30, ⟨.eof, .null, place 31⟩]
    let spelled : Tree := .call (place 10) listName [.call (place 25) listName
      [.variable (place 25) "a", .literal (place 28) (.int 2)]]
    let region : Tree := .call (place 1) listName
      [.call (place 1) parenName [.call (place 3) listName
        [.symbol (place 3) "-" .between, .literal (place 4) (.int 1)]],
        .symbol (place 7) "+" .between,
        .call (place 9) bracketName [.call (place 10) listName [spelled]]]
    let tree : Tree := .call (place 3) "add"
      [.call (place 3) "neg" [.literal (place 4) (.int 1)],
        .bracket (place 9) (.join (place 25) .string
          [.variable (place 25) "a", .literal (place 28) (.int 2)])]
    tokens "p(-1) + [__autoconcat__(@a 2)]" "f.ms" = .ok ts ∧
    (Source.mk [] .builtin).regions ts = .ok [region] ∧
    (region.finish ⟨.builtin, .string⟩).result = .ok tree ∧
    (∀ u ∈ tree.parts, u.isSymbol = false ∧
      ∀ p name children, u = .call p name children → name ∉ structuralNames) ∧
    ∀ d, (tree.finish d).result = .ok tree ∧ Tally.ofSteps (tree.finish d).steps = ⟨0, 0, 0⟩ := by
  intro place text ts spelled region tree
  have htokens : tokens "p(-1) + [__autoconcat__(@a 2)]" "f.ms" = .ok ts :=
    Traced.eq_ok_of_toOption (by decide +kernel)
  have hregions : (Source.mk [] .builtin).regions ts = .ok [region] := rfl
  have htree : (region.finish ⟨.builtin, .string⟩).result = .ok tree := rfl
  exact ⟨htokens, hregions, htree,
    finish_reaches_normal_form htokens hregions List.mem_cons_self htree⟩

end Tree

end LineScript
