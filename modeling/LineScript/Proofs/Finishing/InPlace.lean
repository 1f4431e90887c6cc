import LineScript.Proofs.Finishing.Complaints
import LineScript.Proofs.Reduction.InPlace
import LineScript.Registry.Builtin

/-!
# Finishing in place

Finishing as it runs, with reduction in place: a look at the only child of a group can fail as
well. It never does (`finish_eq`), so finishing a region of a script breaks no invariant: it ends
with a tree or with a diagnostic.
-/

namespace LineScript

namespace Tree.InPlace

open Traced Reduction.InPlace

/-- The one tree within a bracket or a brace, or the empty value. -/
def soleContent (place : Location) (group : String) (children : List Tree) : Traced Tree :=
  if 1 < children.length then complain (.crowdedGroup group children.length) place
  else if children.isEmpty then pure (.void place)
  else treeAt children 0

/-- What a call with finished children stands for. -/
def finishCall (d : Dialect) (place : Location) (name : String) (children : List Tree) :
    Traced Tree :=
  if name = listName then do
    step .list
    reduce d place children
  else if name = parenName then do
    step .paren
    if children.isEmpty then return .void place
    else if children.length = 1 then treeAt children 0
    else do
      step (.parenList children.length place)
      reduce d place children
  else if name = bracketName then do
    step .group
    return .bracket place (← soleContent place "[]" children)
  else if name = braceName then do
    step .group
    return .brace place (← soleContent place "\x7b\x7d" children)
  else pure (.call place name children)

mutual

/-- The finished tree. -/
def finish (d : Dialect) : Tree → Traced Tree
  | .hole => fail .hole
  | .call p name children => do finishCall d p name (← finishList d children)
  | .entry p l v => do return .entry p l (← finish d v)
  | .join p mode children => do return .join p mode (← finishList d children)
  | .bracket p content => do return .bracket p (← finish d content)
  | .brace p content => do return .brace p (← finish d content)
  | t => pure t

/-- The finished trees of a list. -/
def finishList (d : Dialect) : List Tree → Traced (List Tree)
  | [] => pure []
  | t :: ts => do
    let t ← finish d t
    return t :: (← finishList d ts)

end

/-! ### Every look succeeds -/

lemma soleContent_eq (p : Location) (group : String) (ts : List Tree) :
    soleContent p group ts = Tree.soleContent p group ts := by
  rcases ts with _ | ⟨t, _ | ⟨u, ts⟩⟩
  · rfl
  · rfl
  · exact if_pos (by simp)

lemma finishCall_eq (d : Dialect) (p : Location) (name : String) (ts : List Tree) :
    finishCall d p name ts = Tree.finishCall d p name ts := by
  unfold finishCall Tree.finishCall
  simp only [reduce_eq, soleContent_eq]
  rcases ts with _ | ⟨t, _ | ⟨u, ts⟩⟩ <;> rfl

lemma finishList_eq {d : Dialect} {ts : List Tree} (h : ∀ t ∈ ts, finish d t = t.finish d) :
    finishList d ts = Tree.finishList d ts := by
  induction ts with
  | nil => rfl
  | cons t ts ih =>
    obtain ⟨ht, hts⟩ := List.forall_mem_cons.mp h
    rw [finishList, Tree.finishList, ht, ih hts]

/-- Finishing in place is finishing: no look of it fails. -/
theorem finish_eq (d : Dialect) (t : Tree) : finish d t = t.finish d := by
  induction t with
  | call p name ts ih => rw [finish, Tree.finish, finishList_eq ih]; simp only [finishCall_eq]
  | join p mode ts ih => rw [finish, Tree.finish, finishList_eq ih]
  | entry p l v _ ih => rw [finish, Tree.finish, ih]
  | bracket p v ih => rw [finish, Tree.finish, ih]
  | brace p v ih => rw [finish, Tree.finish, ih]
  | _ => rfl

/-! ### Regions of scripts -/

lemma ne_unknownSymbol_of_isOfFinishing {c : Complaint} (h : c.IsOfFinishing) (s : String) :
    c ≠ .unknownSymbol s := by
  rintro rfl
  exact h

/-- A region of a script is finished to a tree, or there is a diagnostic about a list or a group.
Nothing is looked at that is not there, no function name is unknown, no symbol without operation. -/
theorem finish_breaks_no_invariant {source file : String} {ts : List Token} {lines : List String}
    {registry : Registry} {regions : List Tree} {region : Tree}
    (htokens : tokens source file = .ok ts)
    (hregions : (Grouping.Source.mk lines registry).regions ts = .ok regions)
    (hregion : region ∈ regions) (mode : JoinMode) :
    finish ⟨registry, mode⟩ region = region.finish ⟨registry, mode⟩ ∧
      ((∃ tree, (finish ⟨registry, mode⟩ region).result = .ok tree) ∨
        ∃ e, (finish ⟨registry, mode⟩ region).result = .error (.diagnostic e) ∧
          ∀ s, e.complaint ≠ .unknownSymbol s) := by
  have heq := finish_eq ⟨registry, mode⟩ region
  refine ⟨heq, ?_⟩
  rw [heq]
  obtain ⟨tree, htree, -⟩ | ⟨e, he, hcomplaint⟩ :=
    (delivers_finish_region (d := ⟨registry, mode⟩) rfl htokens hregions hregion).cases
  · exact Or.inl ⟨tree, htree⟩
  · exact Or.inr ⟨e, he, ne_unknownSymbol_of_isOfFinishing hcomplaint⟩

/-- Of `k: msg @a++ 2` and `3 *` the first is finished, and the symbol of the second is blamed. -/
theorem finish_labelled_call_and_dangling_symbol :
    let first (column : Int) : Location := ⟨"f.ms", 1, column⟩
    let second (column : Int) : Location := ⟨"f.ms", 2, column⟩
    let ts : List Token := [⟨.word, .text "k", first 1⟩, ⟨.colon, .text ":", first 2⟩,
      ⟨.word, .text "msg", first 4⟩, ⟨.variable, .text "a", first 8⟩,
      ⟨.symbol, .text "++", first 10⟩, ⟨.number, .int 2, first 13⟩, ⟨.newline, .null, first 14⟩,
      ⟨.number, .int 3, second 1⟩, ⟨.symbol, .text "*", second 3⟩, ⟨.eof, .null, second 4⟩]
    let call : Tree := .call (first 1) listName [.label (first 1) "k",
      .identifier (first 4) "msg", .variable (first 8) "a", .symbol (first 10) "++" .after,
      .literal (first 13) (.int 2)]
    let dangling : Tree := .call (second 1) listName
      [.literal (second 1) (.int 3), .symbol (second 3) "*" .between]
    tokens "k: msg @a++ 2\n3 *" "f.ms" = .ok ts ∧
    (Grouping.Source.mk [] .builtin).regions ts = .ok [call, dangling] ∧
    (finish ⟨.builtin, .string⟩ call).result = .ok (.entry (first 1) (.label (first 1) "k")
      (.call (first 4) "msg" [.join (first 8) .string
        [.call (first 8) "postinc" [.variable (first 8) "a"], .literal (first 13) (.int 2)]])) ∧
    (finish ⟨.builtin, .string⟩ dangling).result =
      .error (.diagnostic (.of (.misplacedSymbol "*") (second 3))) ∧
    ∀ region ∈ [call, dangling],
      finish ⟨.builtin, .string⟩ region = region.finish ⟨.builtin, .string⟩ ∧
        ((∃ tree, (finish ⟨.builtin, .string⟩ region).result = .ok tree) ∨
          ∃ e, (finish ⟨.builtin, .string⟩ region).result = .error (.diagnostic e) ∧
            ∀ s, e.complaint ≠ .unknownSymbol s) := by
  intro first second ts call dangling
  have htokens : tokens "k: msg @a++ 2\n3 *" "f.ms" = .ok ts :=
    Traced.eq_ok_of_toOption (by decide +kernel)
  have hregions : (Grouping.Source.mk [] .builtin).regions ts = .ok [call, dangling] := rfl
  refine ⟨htokens, hregions, ?_, ?_, fun region hregion =>
    finish_breaks_no_invariant htokens hregions hregion .string⟩
  · rw [finish_eq]
    rfl
  · rw [finish_eq]
    rfl

end Tree.InPlace

end LineScript
