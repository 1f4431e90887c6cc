import LineScript.Proofs.Finishing.Composition
import LineScript.Proofs.Grouping.Entry
import LineScript.Proofs.Reduction.Leading
import LineScript.Proofs.Tree.Unplaced

/-!
# The value of an entry

Behind a label, tokens are compiled as they are by themselves, to the value of an entry. Only the
name of a function is no name of a function any more where a second label came before it. It is
then the same as a text, which can be refused where the name was not.
-/

namespace LineScript

namespace Tree

open Grouping Reduction Traced

variable {d : Dialect} {p : Location} {t l : Tree} {ts us siblings : List Tree}
  {r r' : Except Failure Tree} {tokens : List Token} {a c : Token} {word : String}

/-- Tokens become one thing only. -/
lemma CompilesTo.unique (h : CompilesTo d tokens r) (h' : CompilesTo d tokens r') : r = r' := by
  obtain ⟨region, hregion, rfl⟩ := h
  obtain ⟨region', hregion', rfl⟩ := h'
  have hsame := (hregion.regions [] ⟨.eof, .null, .unknown⟩ rfl).symm.trans
    (hregion'.regions [] ⟨.eof, .null, .unknown⟩ rfl)
  obtain ⟨rfl, -⟩ := List.cons.inj (Except.ok.inj hsame)
  rfl

/-- What is grouped and finished where no line ends is compiled. -/
lemma compilesTo_of_regions {region : Tree} (last : Token)
    (hkinds : ∀ t ∈ tokens, t.kind ≠ .eof ∧ t.kind ≠ .newline) (hlast : last.kind = .eof)
    (hregion : (Source.mk [] d.registry).regions (tokens ++ [last]) = .ok [region])
    (hr : (finish d region).result = r) : CompilesTo d tokens r := by
  have hlines : LinesInside 0 tokens := linesInside_of_ne_newline (fun t ht => (hkinds t ht).2) 0
  exact ⟨region, .of_regions (s := ⟨[], d.registry⟩) (fun t ht => (hkinds t ht).1) hlines hlast
    hregion, hr⟩

/-! ### Lists behind a label -/

/-- A label in front of siblings makes an entry of the tree of their list. -/
lemma result_finish_label (hne : siblings ≠ [])
    (h : (finish d (listOf p siblings)).result = .ok t) (q : Location) (name : String) :
    (finish d (.call q listName (.label q name :: siblings.reverse))).result =
      .ok (.entry q (.label q name) t) := by
  obtain ⟨vs, hvs, hreduce⟩ := result_bind_eq_ok_iff.mp h
  rw [result_finishCall_listName] at hreduce
  have hfinished : vs ≠ [] := by
    rintro rfl
    have hnil := List.forall₂_nil_right_iff.mp (forall₂_of_result_finishList hvs)
    exact hne (List.reverse_eq_nil_iff.mp hnil)
  have hlist : (finishList d (.label q name :: siblings.reverse)).result =
      .ok (.label q name :: vs) := result_finishList_cons rfl hvs
  rw [finish, result_bind_of_ok hlist, result_finishCall_listName]
  exact result_reduce_label ((result_reduce_place hfinished d q _).trans hreduce) q name

lemma result_finishList_label (hl : l.isLabel = true) (d : Dialect) (ts : List Tree) :
    (finishList d (l :: ts)).result = (finishList d ts).result.map (l :: ·) := by
  cases l with
  | label p name =>
    rw [finishList, result_bind_of_ok (x := finish d (.label p name)) rfl, result_bind]
    cases (finishList d ts).result <;> rfl
  | _ => cases hl

/-- In front of another label a label makes an entry of what the list becomes with this one alone,
and it fails as that list does. -/
lemma result_finish_two_labels (hl : l.isLabel = true) (d : Dialect) (q : Location) (name : String)
    (ts : List Tree) :
    (finish d (.call q listName (.label q name :: l :: ts))).result =
      (finish d (.call l.place listName (l :: ts))).result.map (.entry q (.label q name)) := by
  rw [finish, finish, result_bind, result_bind, result_finishList_label rfl,
    result_finishList_label hl]
  cases (finishList d ts).result with
  | error e => rfl
  | ok us =>
    have hplace : (reduce d q (l :: us)).result = (reduce d l.place (l :: us)).result :=
      result_reduce_place (List.cons_ne_nil l us) d q l.place
    calc (finishCall d q listName (.label q name :: l :: us)).result
      _ = (reduce d q (.label q name :: l :: us)).result := result_finishCall_listName q _
      _ = (reduce d q (l :: us)).result.map (.entry q (.label q name)) := by
        rw [reduce_label_leader (isLeader_of_isLabel hl), result_bind]
        cases (reduce d q (l :: us)).result <;> rfl
      _ = (finishCall d l.place listName (l :: us)).result.map (.entry q (.label q name)) := by
        rw [hplace, result_finishCall_listName]

/-! ### Tokens behind a label -/

/-- Behind a label, tokens are compiled as they are by themselves, at the places where they stand
there, to the value of an entry. If they begin with a label of their own and a function name behind
it, they are compiled as they are by themselves with this name between quotes, and fail as they do
then. -/
theorem compilesTo_entry {ts : List Token} (ha : a.kind = .word) (hword : a.value = .text word)
    (hc : c.kind = .colon) (φ : Location → Location) :
    (¬NamesBehindLabel d.registry ts → ∀ t, CompilesTo d ts (.ok t) →
      CompilesTo d (a :: c :: ts.map (Token.relocate φ))
        (.ok (.entry a.place (.label a.place word) (t.relocate φ)))) ∧
    (NamesBehindLabel d.registry ts → ∀ r, CompilesTo d ts r →
      ∃ r', CompilesTo d (quoteThird ts) r' ∧ CompilesTo d (a :: c :: ts.map (Token.relocate φ))
        ((relocateOutcome φ r').map (.entry a.place (.label a.place word)))) := by
  constructor
  · intro hnames t h
    obtain ⟨region, hregion, ht⟩ : CompilesTo d (ts.map (Token.relocate φ))
        (.ok (t.relocate φ)) := h.relocate φ
    obtain ⟨siblings, hne, hlist, hentry⟩ :=
      hregion.behind_label fun hnames' => hnames hnames'.of_relocate
    rw [← hlist a.place] at ht
    exact ⟨_, hentry ha hword hc, result_finish_label hne ht a.place word⟩
  · rintro hnames - ⟨region, hregion, -⟩
    obtain ⟨l, us, -, hquoted, -⟩ := hnames.formsRegion hregion
    let r := (finish d (.call l.place listName (l :: us))).result
    have htext : CompilesTo d (quoteThird ts) r := ⟨_, hquoted, rfl⟩
    refine ⟨r, htext, ?_⟩
    -- where the tokens stand behind the label, they are grouped with the name as a text as well
    obtain ⟨l', us', hl', hquoted', hentry⟩ := (hnames.relocate φ).formsRegion (hregion.relocate φ)
    have hsame : (finish d (.call l'.place listName (l' :: us'))).result = relocateOutcome φ r := by
      have hmoved := htext.relocate φ
      rw [← quoteThird_map_relocate] at hmoved
      exact CompilesTo.unique ⟨_, hquoted', rfl⟩ hmoved
    rw [← hsame, ← result_finish_two_labels hl']
    exact ⟨_, hentry ha hword hc, rfl⟩

/-- In `a: k: 1 + 2` the value is what `k: 1 + 2` is by itself. In `a: k: msg 'x'` the name is a
text, as in `k: 'msg' 'x'`. By itself `k: msg 1 (msg)` is compiled, but `a: k: msg 1 (msg)` fails as
`k: 'msg' 1 (msg)` does, where the name between parentheses is refused. -/
theorem compilesTo_entry_of_entries :
    let place (column : Int) : Location := ⟨"f.ms", 1, column⟩
    let token (kind : TokenKind) (text : String) (column : Int) : Token :=
      ⟨kind, .text text, place column⟩
    let number (n column : Int) : Token := ⟨.number, .int n, place column⟩
    let shift (p : Location) : Location := ⟨p.file, p.line, p.column + 3⟩
    let d : Dialect := ⟨.builtin, .string⟩
    let a := token .word "a" 1
    let colon := token .colon ":" 2
    let sum := [token .word "k" 1, colon, number 1 4, token .symbol "+" 6, number 2 8]
    let named := [token .word "k" 1, colon, token .word "msg" 4, token .string "x" 8]
    let twice := [token .word "k" 1, colon, token .word "msg" 4, number 1 8,
      token .leftParen "(" 10, token .word "msg" 11, token .rightParen ")" 14]
    let value : Tree := .call (place 4) "add" [.literal (place 4) (.int 1),
      .literal (place 8) (.int 2)]
    let text : Tree := .join (place 4) .string [.literal (place 4) (.text "msg"),
      .literal (place 8) (.text "x")]
    let called : Tree := .call (place 4) "msg" [.join (place 8) .string
      [.literal (place 8) (.int 1), .identifier (place 11) "msg"]]
    let entry (v : Tree) : Tree := .entry (place 1) (.label (place 1) "k") v
    let misplaced (p : Location) : Failure := .diagnostic (.of (.misplacedIdentifier "msg") p)
    ¬NamesBehindLabel d.registry sum ∧ CompilesTo d sum (.ok (entry value)) ∧
    NamesBehindLabel d.registry named ∧ CompilesTo d (quoteThird named) (.ok (entry text)) ∧
    NamesBehindLabel d.registry twice ∧ CompilesTo d twice (.ok (entry called)) ∧
    CompilesTo d (quoteThird twice) (.error (misplaced (place 11))) ∧
    CompilesTo d (a :: colon :: sum.map (Token.relocate shift))
      (.ok (.entry (place 1) (.label (place 1) "a") ((entry value).relocate shift))) ∧
    CompilesTo d (a :: colon :: named.map (Token.relocate shift))
      (.ok (.entry (place 1) (.label (place 1) "a") ((entry text).relocate shift))) ∧
    CompilesTo d (a :: colon :: twice.map (Token.relocate shift))
      (.error (misplaced (place 14))) := by
  intro place token number shift d a colon sum named twice value text called entry misplaced
  let last := token .eof "" 15
  have hsum : CompilesTo d sum (.ok (entry value)) :=
    compilesTo_of_regions last (by decide) rfl rfl rfl
  have hnamed : CompilesTo d named (.ok (entry (.call (place 4) "msg"
      [.literal (place 8) (.text "x")]))) :=
    compilesTo_of_regions last (by decide) rfl rfl rfl
  have htext : CompilesTo d (quoteThird named) (.ok (entry text)) :=
    compilesTo_of_regions last (by decide) rfl rfl rfl
  have htwice : CompilesTo d twice (.ok (entry called)) :=
    compilesTo_of_regions last (by decide) rfl rfl rfl
  have hfails : CompilesTo d (quoteThird twice) (.error (misplaced (place 11))) :=
    compilesTo_of_regions last (by decide) rfl rfl rfl
  have hnone : ¬NamesBehindLabel d.registry sum := by
    intro hnames
    change NamesBehindLabel d.registry (_ :: _ :: number 1 4 :: _) at hnames
    cases hnames with
    | intro _ _ hw => exact absurd hw (by decide)
  have hnames : NamesBehindLabel d.registry named :=
    .intro rfl rfl rfl rfl (by simp [IsFree, token, canLabel])
  have hnames' : NamesBehindLabel d.registry twice :=
    .intro rfl rfl rfl rfl (by simp [IsFree, number, canLabel])
  have ha : a.kind = .word := rfl
  have hword : a.value = .text "a" := rfl
  have hc : colon.kind = .colon := rfl
  obtain ⟨r, hr, hbehind⟩ := (compilesTo_entry ha hword hc shift).2 hnames _ hnamed
  obtain rfl := hr.unique htext
  obtain ⟨r, hr, hbehind'⟩ := (compilesTo_entry ha hword hc shift).2 hnames' _ htwice
  obtain rfl := hr.unique hfails
  exact ⟨hnone, hsum, hnames, htext, hnames', htwice, hfails,
    (compilesTo_entry ha hword hc shift).1 hnone _ hsum, hbehind, hbehind'⟩

/-- By itself `k: msg 'x'` calls the function, but in `a: k: msg 'x'` its name is a text. -/
theorem compilesTo_name_behind_labels :
    ¬∀ (d : Dialect) (a c : Token) (word : String) (ts : List Token) (t : Tree),
      a.kind = .word → a.value = .text word → c.kind = .colon → CompilesTo d ts (.ok t) →
        ∃ u, CompilesTo d (a :: c :: ts) (.ok u) ∧
          u.unplaced = (Tree.entry a.place (.label a.place word) t).unplaced := by
  intro hclaim
  let place (column : Int) : Location := ⟨"f.ms", 1, column⟩
  let token (kind : TokenKind) (text : String) (column : Int) : Token :=
    ⟨kind, .text text, place column⟩
  let d : Dialect := ⟨.builtin, .string⟩
  let last := token .eof "" 14
  let a := token .word "a" 1
  let ts := [token .word "k" 4, token .colon ":" 5, token .word "msg" 7, token .string "x" 11]
  have hts : CompilesTo d ts (.ok (.entry (place 4) (.label (place 4) "k")
      (.call (place 7) "msg" [.literal (place 11) (.text "x")]))) :=
    compilesTo_of_regions last (by decide) rfl rfl rfl
  have hall : CompilesTo d (a :: token .colon ":" 2 :: ts)
      (.ok (.entry (place 1) (.label (place 1) "a") (.entry (place 4) (.label (place 4) "k")
        (.join (place 7) .string [.literal (place 7) (.text "msg"),
          .literal (place 11) (.text "x")])))) :=
    compilesTo_of_regions last (by decide) rfl rfl rfl
  obtain ⟨u, hu, heq⟩ := hclaim d a (token .colon ":" 2) "a" ts _ rfl rfl rfl hts
  obtain rfl := Except.ok.inj (hu.unique hall)
  cases heq

end Tree

end LineScript
