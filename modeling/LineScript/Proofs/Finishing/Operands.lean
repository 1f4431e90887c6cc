import LineScript.Proofs.Finishing.Cases
import LineScript.Proofs.Reduction.Leaders
import LineScript.Proofs.Token.Reading
import LineScript.Registry.Builtin

/-!
# What is handed to reduction

While a region is finished, the siblings of its lists are reduced once they are finished themselves,
and so are the lists of a parenthesised group that has several. A group among them has become an
operand by then, unless it holds a function name and nothing else: a list of one tree is this tree,
and parentheses give way to it, so that the name is handed on as if it stood there without the
parentheses (`finish_hands_operands_or_names`).
-/

namespace LineScript

namespace Tree

open Traced Reduction Grouping

variable {d : Dialect} {p : Location} {name : String} {t u region : Tree} {ts us cs : List Tree}

/-! ### Names in parentheses -/

/-- The tree is a function name, which may stand by itself in lists and parentheses. -/
inductive Names (q : Location) (n : String) : Tree → Prop where
  | identifier : Names q n (.identifier q n)
  | enclosed {p : Location} {group : String} {t : Tree}
      (hgroup : group = listName ∨ group = parenName) (h : Names q n t) :
      Names q n (.call p group [t])

lemma names_call_iff {q : Location} {n : String} : Names q n (.call p name ts) ↔
    (name = listName ∨ name = parenName) ∧ ∃ t, ts = [t] ∧ Names q n t := by
  constructor
  · rintro (_ | ⟨hgroup, h⟩)
    exact ⟨hgroup, _, rfl, h⟩
  · rintro ⟨hgroup, t, rfl, h⟩
    exact .enclosed hgroup h

lemma names_iff_of_ne_call (ht : ∀ p name ts, t ≠ .call p name ts) {q : Location} {n : String} :
    Names q n t ↔ t = .identifier q n := by
  constructor
  · rintro (_ | _)
    · rfl
    · exact absurd rfl (ht _ _ _)
  · rintro rfl
    exact .identifier

/-! ### What becomes of a name -/

/-- The tree is an operand or a function name. -/
def IsOperandOrName (t : Tree) : Prop := t.isOperand = true ∨ ∃ q n, t = .identifier q n

/-- A list is reduced to an operand unless it is a function name and nothing else. -/
lemma isOperandOrName_of_result_reduce (h : (reduce d p ts).result = .ok t) :
    t.IsOperandOrName ∧ ∀ q n, t = .identifier q n ↔ ts = [.identifier q n] := by
  obtain ⟨hwhole, us, hrewrites, hsymbols, hsettled⟩ := exists_rewrites h
  have hholes := ne_hole_of_rewrites hrewrites fun u hu => (hwhole u hu).1
  have hback : ∀ q n, ts = [.identifier q n] → t = .identifier q n := by
    rintro q n rfl
    exact (Except.ok.inj h).symm
  cases hsettled with
  | entry | call | join => exact ⟨Or.inl rfl, fun q n => ⟨nofun, hback q n⟩⟩
  | single ht =>
    refine ⟨?_, fun q n => ⟨?_, hback q n⟩⟩
    · have hsymbol := hsymbols t List.mem_cons_self
      have hhole := hholes t List.mem_cons_self
      cases t with
      | hole => exact absurd rfl hhole
      | symbol | label => contradiction
      | identifier q n => exact Or.inr ⟨q, n, rfl⟩
      | _ => exact Or.inl rfl
    · rintro rfl
      obtain ⟨vs, rfl, hvs⟩ := hrewrites.exists_of_cons rfl
      rw [hvs.of_nil]

/-! ### Finishing -/

/-- The tree that an element is finished to: it is a function name just if the element is one. -/
structure HandsOver (c u : Tree) : Prop where
  isOperandOrName : (∃ p name ts, c = .call p name ts) → u.IsOperandOrName
  eq_identifier_iff : ∀ q n, u = .identifier q n ↔ Names q n c

/-- Trees are finished to a single function name just if they are one. -/
lemma eq_singleton_identifier_iff (h : List.Forall₂ HandsOver cs us) (q : Location) (n : String) :
    us = [.identifier q n] ↔ ∃ c, cs = [c] ∧ Names q n c := by
  match cs, us, h with
  | [], _, .nil => simp
  | [c], [u], .cons hcu .nil => simp [hcu.eq_identifier_iff q n]
  | c :: c' :: cs, u :: u' :: us, .cons _ (.cons _ _) => simp

lemma handsOver_list (hts : List.Forall₂ HandsOver cs us) (hu : (reduce d p us).result = .ok u)
    {q : Location} (hname : name = listName ∨ name = parenName) :
    HandsOver (.call q name cs) u := by
  obtain ⟨hkind, hiff⟩ := isOperandOrName_of_result_reduce hu
  refine ⟨fun _ => hkind, fun q n => ?_⟩
  rw [hiff, eq_singleton_identifier_iff hts, names_call_iff, and_iff_right hname]

lemma handsOver_operand (hu : u.isOperand = true) (hc : ∀ q n, ¬Names q n t) : HandsOver t u := by
  refine ⟨fun _ => Or.inl hu, fun q n => iff_of_false ?_ (hc q n)⟩
  rintro rfl
  cases hu

/-- A group is finished to a function name just if it holds one and nothing else. -/
lemma handsOver_of_finishedCall (h : FinishedCall d p name us u)
    (hcs : List.Forall₂ HandsOver cs us)
    (hcalls : ∀ c ∈ cs, ∃ p name ts, c = .call p name ts) : HandsOver (.call p name cs) u := by
  have hnot : ¬(name = listName ∨ name = parenName) → ∀ q n, ¬Names q n (.call p name cs) :=
    fun hname q n hnames => hname (names_call_iff.mp hnames).1
  cases h with
  | list h => exact handsOver_list hcs h (Or.inl rfl)
  | parenList h => exact handsOver_list hcs h (Or.inr rfl)
  | paren h =>
    cases h with
    | void =>
      refine handsOver_operand rfl fun q n hnames => ?_
      obtain ⟨-, c, rfl, -⟩ := names_call_iff.mp hnames
      cases hcs
    | tree u =>
      match cs, hcs with
      | [c], .cons hcu .nil =>
        refine ⟨fun _ => hcu.isOperandOrName (hcalls c List.mem_cons_self), fun q n => ?_⟩
        rw [hcu.eq_identifier_iff, names_call_iff]
        simp
  | bracket | brace => exact handsOver_operand rfl (hnot (by decide))
  | call hname =>
    refine handsOver_operand rfl (hnot fun h => hname ?_)
    rcases h with rfl | rfl <;> decide

/-- Groups and lists come to operands and function names. -/
lemma carries_handsOver (d : Dialect) (registry : Registry) (tokens : List Token) :
    Carries d (Bears registry tokens) HandsOver (fun l u => HandsOver l.call u) where
  atom t u ht hu := by
    obtain rfl := eq_of_finish_bears ht hu
    have hcall : ∀ p name ts, t ≠ .call p name ts := by
      rcases ht.cases with ⟨p, n, rfl⟩ | ⟨v, -, -, f, rfl⟩ | ⟨p, n, -, rfl⟩ | ⟨p, v, rfl⟩ |
        ⟨p, n, rfl⟩ <;> simp
    refine ⟨?_, fun q n => (names_iff_of_ne_call hcall).symm⟩
    rintro ⟨p, name, ts, rfl⟩
    exact absurd rfl (hcall p name ts)
  list l us u hus hu := handsOver_list hus hu (Or.inl rfl)
  group p name ls us u hus hu := by
    refine handsOver_of_finishedCall hu (List.forall₂_map_left_iff.mpr hus) ?_
    rintro _ hmem
    obtain ⟨l, -, rfl⟩ := List.mem_map.mp hmem
    exact ⟨_, _, _, rfl⟩

/-! ### Lists that are reduced -/

/-- While the region is finished, the finished trees of some siblings are reduced: those of a list,
or those of a parenthesised group with several lists. -/
inductive Hands (d : Dialect) (region : Tree) (cs us : List Tree) : Prop where
  | list {p : Location} (h : .call p listName cs ∈ region.parts)
      (hus : List.Forall₂ (fun c u => (finish d c).result = .ok u) cs us) : Hands d region cs us
  | group {p : Location} (h : .call p parenName cs ∈ region.parts)
      (hus : List.Forall₂ (fun c u => (finish d c).result = .ok u) cs us)
      (hlength : 2 ≤ us.length) : Hands d region cs us

lemma Hands.forall₂ (h : Hands d region cs us) :
    List.Forall₂ (fun c u => (finish d c).result = .ok u) cs us := by
  cases h <;> assumption

lemma result_finishList_of_forall₂
    (h : List.Forall₂ (fun c u => (finish d c).result = .ok u) cs us) :
    (finishList d cs).result = .ok us := by
  induction h with
  | nil => rfl
  | cons hcu _ ih => exact result_finishList_cons hcu ih

/-- The siblings stand in a call of the region, which comes to what their finished trees are reduced
to. -/
lemma Hands.result_finish (h : Hands d region cs us) : ∃ p name,
    .call p name cs ∈ region.parts ∧
      (finish d (.call p name cs)).result = (reduce d p us).result := by
  cases h with
  | @list p h hus =>
    refine ⟨p, listName, h, ?_⟩
    rw [finish, result_bind_of_ok (result_finishList_of_forall₂ hus), result_finishCall_listName]
  | @group p h hus hlength =>
    refine ⟨p, parenName, h, ?_⟩
    rw [finish, result_bind_of_ok (result_finishList_of_forall₂ hus)]
    unfold finishCall
    rw [if_neg (by decide), if_pos rfl, result_bind_of_ok (result_step .paren)]
    obtain ⟨u, v, vs, rfl⟩ : ∃ u v vs, us = u :: v :: vs := by
      rcases us with _ | ⟨u, _ | ⟨v, vs⟩⟩
      · cases hlength
      · cases Nat.le_of_succ_le_succ hlength
      · exact ⟨u, v, vs, rfl⟩
    exact result_bind_of_ok (result_step (.parenList (vs.length + 2) p)) _

/-- All parts of a region are elements or lists. -/
lemma all_of_isRegion {P : Tree → Prop} (hP : ∀ t, P t → t.children = [])
    (h : IsRegion P region) : region.All fun u => IsElement P u ∨ IsRegion P u := by
  have helement : ∀ t, IsElement P t → t.All fun u => IsElement P u ∨ IsRegion P u := by
    intro t ht
    induction ht with
    | @atom t ht => exact all_iff.mpr ⟨Or.inl (.atom ht), by simp [hP t ht]⟩
    | @group p name ls hls ih =>
      refine all_iff.mpr ⟨Or.inl (.group hls), List.forall_mem_map.mpr fun l hl => ?_⟩
      exact all_iff.mpr ⟨Or.inr ⟨l, rfl, hls l hl⟩, ih l hl⟩
  obtain ⟨l, rfl, hl⟩ := h
  exact all_iff.mpr ⟨Or.inr ⟨l, rfl, hl⟩, fun e he => helement e (hl e he)⟩

/-- Among the siblings that are reduced a group or call has come to an operand, or to the one
function name that it holds; it never comes to a symbol, a label or a hole. -/
theorem finish_hands_operands_or_names {s : Source} {source file : String} {ts : List Token}
    {regions : List Tree} (htokens : tokens source file = .ok ts)
    (hregions : s.regions ts = .ok regions) (hregion : region ∈ regions)
    (hhands : Hands d region cs us) :
    List.Forall₂ (fun c u => c.kind? = some .call →
      (u.isOperand = true ∧ ∀ q n, ¬Names q n c) ∨ ∃ q n, u = .identifier q n ∧ Names q n c)
      cs us := by
  obtain ⟨rest, last, rfl, hlast, hrest⟩ := (tokens_eq_ok_iff.mp htokens).exists_last
  have hshape := isRegion_of_mem_regions hlast hrest hregions region hregion
  have hparts := all_of_isRegion (fun _ ht => ht.children_eq_nil) hshape
  obtain ⟨p, name, hcall, -⟩ := hhands.result_finish
  refine forall₂_imp_of_mem hhands.forall₂ fun c hc u hu hkind => ?_
  have hcarries := carries_handsOver d s.registry (rest ++ [last])
  have hover : HandsOver c u := by
    rcases hparts.children _ hcall c hc with helement | ⟨l, rfl, hl⟩
    · exact hcarries.element helement u hu
    · exact hcarries.region hl hu
  have hcalls : ∃ p name ts, c = .call p name ts := by
    cases c with
    | call p name ts => exact ⟨p, name, ts, rfl⟩
    | join p mode ts => cases mode <;> cases hkind
    | _ => cases hkind
  rcases hover.isOperandOrName hcalls with hoperand | ⟨q, n, rfl⟩
  · refine Or.inl ⟨hoperand, fun q n hnames => ?_⟩
    rw [(hover.eq_identifier_iff q n).mpr hnames] at hoperand
    cases hoperand
  · exact Or.inr ⟨q, n, rfl, (hover.eq_identifier_iff q n).mp rfl⟩

/-- The lists of `(die, 2)` are handed on together, and the first one has come to a name. -/
theorem finish_hands_name_of_list :
    let place (column : Int) : Location := ⟨"f.ms", 1, column⟩
    let text (kind : TokenKind) (s : String) (column : Int) : Token :=
      ⟨kind, .text s, place column⟩
    let ts := [text .leftParen "(" 1, text .word "die" 2, text .comma "," 5,
      ⟨.number, .int 2, place 7⟩, text .rightParen ")" 8, ⟨.eof, .null, place 9⟩]
    let die : Tree := .identifier (place 2) "die"
    let two : Tree := .literal (place 7) (.int 2)
    let cs : List Tree := [.call (place 2) listName [die], .call (place 7) listName [two]]
    let region : Tree := .call (place 1) listName [.call (place 1) parenName cs]
    tokens "(die, 2)" "f.ms" = .ok ts ∧
    (Source.mk [] .builtin).regions ts = .ok [region] ∧
    Hands ⟨.builtin, .string⟩ region cs [die, two] ∧
    List.Forall₂ (fun c u => c.kind? = some .call →
      (u.isOperand = true ∧ ∀ q n, ¬Names q n c) ∨ ∃ q n, u = .identifier q n ∧ Names q n c)
      cs [die, two] := by
  intro place text ts die two cs region
  have htokens : tokens "(die, 2)" "f.ms" = .ok ts :=
    Traced.eq_ok_of_toOption (by decide +kernel)
  have hregions : (Source.mk [] .builtin).regions ts = .ok [region] := rfl
  have hhands : Hands ⟨.builtin, .string⟩ region cs [die, two] := by
    refine .group (p := place 1) ?_ (.cons rfl (.cons rfl .nil)) (Nat.le_refl 2)
    simp [region, parts, partsList]
  exact ⟨htokens, hregions, hhands,
    finish_hands_operands_or_names htokens hregions List.mem_cons_self hhands⟩

/-- In `(msg) 'x'` the parentheses give way to a function name, which then leads its list. -/
theorem finish_hands_enclosed_name :
    ¬∀ (s : Source) (d : Dialect) (source file : String) (ts : List Token) (regions : List Tree)
      (region : Tree) (cs us : List Tree), tokens source file = .ok ts →
      s.regions ts = .ok regions → region ∈ regions → Hands d region cs us →
      List.Forall₂ (fun c u => c.kind? = some .call → u.isOperand = true) cs us := by
  intro hclaim
  let place (column : Int) : Location := ⟨"f.ms", 1, column⟩
  let text (kind : TokenKind) (s : String) (column : Int) : Token := ⟨kind, .text s, place column⟩
  let msg : Tree := .identifier (place 2) "msg"
  let x : Tree := .literal (place 7) (.text "x")
  let group : Tree := .call (place 1) parenName [.call (place 2) listName [msg]]
  have htokens : tokens "(msg) 'x'" "f.ms" = .ok [text .leftParen "(" 1, text .word "msg" 2,
      text .rightParen ")" 5, text .string "x" 7, ⟨.eof, .null, place 10⟩] :=
    Traced.eq_ok_of_toOption (by decide +kernel)
  have hhands : Hands ⟨.builtin, .string⟩ (.call (place 1) listName [group, x]) [group, x]
      [msg, x] := .list (mem_parts_self _) (.cons rfl (.cons rfl .nil))
  have hoperands := hclaim (Source.mk [] .builtin) _ _ _ _ _ _ _ _ htokens rfl List.mem_cons_self
    hhands
  cases hoperands with
  | cons hgroup _ => cases hgroup rfl

end Tree

end LineScript
