import LineScript.Compilation
import LineScript.Proofs.Expression.Ranked
import LineScript.Proofs.Finishing
import LineScript.Proofs.Grouping.Place
import LineScript.Proofs.Grouping.Run
import LineScript.Proofs.Tree.Unplaced

/-!
# Expressions are compiled to their trees

A text of an expression is read back into its spellings, and their tokens become siblings, those
between parentheses in a group of their own. What finishing makes of the siblings has a derivation
in the grammar at the rank of the expression, and its tree is that of the expression.
-/

namespace LineScript

open Grouping Traced

namespace Expr

/-! ### Siblings of an expression -/

/-- The siblings are finished to a list that stands for the expression, at a rank. -/
def IsRead (d : Dialect) (r : Nat) (e : Expr) (us : List Tree) : Prop :=
  ∃ vs t, (Tree.finishList d us).result = .ok vs ∧ Reduction.Ranked r vs t ∧ t.unplaced = e.tree

namespace IsRead

variable {d : Dialect} {r r' : Nat} {e e' : Expr} {us us' : List Tree} {p q : Location}
  {s : String} {f : Fixity}

lemma mono (h : IsRead d r e us) (hr : r ≤ r') : IsRead d r' e us := by
  obtain ⟨vs, t, hvs, ht, htree⟩ := h
  exact ⟨vs, t, hvs, ht.mono hr, htree⟩

lemma of_flag {b : Bool} (h : IsRead d (if b then 0 else e.rank) e us)
    (hb : b = true ∨ e.rank ≤ r) : IsRead d r e us := by
  cases b with
  | true => exact h.mono (Nat.zero_le r)
  | false => exact h.mono (hb.resolve_left Bool.false_ne_true)

/-- At rank zero there is one operand. -/
lemma exists_operand (h : IsRead d 0 e us) : ∃ u, us = [u] ∧ u.isOperand = true := by
  obtain ⟨vs, t, hvs, ⟨rfl, ht⟩, -⟩ := h
  cases us with
  | nil => cases hvs
  | cons u us =>
    obtain ⟨v, vs, hu, hus, heq⟩ := Tree.result_finishList_cons_eq_ok_iff.mp hvs
    obtain ⟨rfl, rfl⟩ := List.cons.inj heq
    cases us with
    | nil => exact ⟨u, rfl, Tree.isOperand_of_result_finish hu ht⟩
    | cons u' us =>
      obtain ⟨v, vs, -, -, heq⟩ := Tree.result_finishList_cons_eq_ok_iff.mp hus
      cases heq

lemma var (name : VarName) : IsRead d 0 (.var name) [.variable p name.text] :=
  ⟨[.variable p name.text], .variable p name.text, rfl, ⟨rfl, rfl⟩, rfl⟩

lemma num {n : Nat} {hn : n < Numeral.bound} : IsRead d 0 (.num n hn) [.literal p (.int n)] :=
  ⟨[.literal p (.int n)], .literal p (.int n), rfl, ⟨rfl, rfl⟩, rfl⟩

lemma before {hs : Operator.isUnary s .before = true} (hf : Operator.isUnary s f = true)
    (hname : Operator.prefixOperation s f = Operator.prefixOperation s .before)
    (h : IsRead d 2 e us) : IsRead d 2 (.before s hs e) (.symbol p s f :: us) := by
  obtain ⟨vs, t, hvs, ht, htree⟩ := h
  refine ⟨_, _, Tree.result_finishList_cons rfl hvs, ht.sign hf, ?_⟩
  simp [Tree.unplaced, Tree.unplacedList, Expr.tree, hname, htree]

lemma after {hs : Operator.isStep s = true} (h : IsRead d 0 e us) :
    IsRead d 1 (.after s hs e) (us ++ [.symbol p s .after]) := by
  obtain ⟨vs, t, hvs, ht, htree⟩ := h
  refine ⟨_, _, Tree.result_finishList_append hvs (Tree.result_finishList_singleton rfl),
    ht.step (by simp [Operator.isPostfix, hs]), ?_⟩
  simp [Tree.unplaced, Tree.unplacedList, Expr.tree, htree]

lemma binary {tier : Tier} {hs : tier.holds s = true} (h : IsRead d tier.rank e us)
    (h' : IsRead d (tier.rank - 1) e' us') :
    IsRead d tier.rank (.binary tier s hs e e') (us ++ .symbol p s .between :: us') := by
  obtain ⟨vs, t, hvs, ht, htree⟩ := h
  obtain ⟨vs', t', hvs', ht', htree'⟩ := h'
  refine ⟨_, _, Tree.result_finishList_append hvs (Tree.result_finishList_cons rfl hvs'),
    ht.binary hs ht', ?_⟩
  simp [Tree.unplaced, Tree.unplacedList, Expr.tree, htree, htree']

lemma assign {hs : Operator.isAssignment s = true} (h : IsRead d 9 e us)
    (h' : IsRead d 10 e' us') :
    IsRead d 10 (.assign s hs e e') (us ++ .symbol p s f :: us') := by
  obtain ⟨vs, t, hvs, ht, htree⟩ := h
  obtain ⟨vs', t', hvs', ht', htree'⟩ := h'
  refine ⟨_, _, Tree.result_finishList_append hvs (Tree.result_finishList_cons rfl hvs'),
    ht.assign hs ht', ?_⟩
  rw [Reduction.assignment_eq hs, Expr.tree]
  split_ifs <;> simp [Tree.unplaced, Tree.unplacedList, htree, htree']

lemma parens (h : IsRead d r e us) (hr : r ≤ 10) :
    IsRead d 0 e [.call p Tree.parenName [.call q Tree.listName us]] := by
  obtain ⟨vs, t, hvs, ht, htree⟩ := h
  have hassigned := ht.assigned hr
  exact ⟨[t], t, Tree.result_finishList_singleton (Tree.result_finish_paren hvs hassigned p q),
    ⟨rfl, hassigned.isOperand⟩, htree⟩

end IsRead

/-! ### Tokens of an expression -/

lemma fixity_of_isUnary {s : String} (hs : Operator.isUnary s .before = true) {us : List Tree}
    (hus : us.head?.any Tree.isOperand = false) :
    Operator.isUnary s (fixity s us) = true ∧
      Operator.prefixOperation s (fixity s us) = Operator.prefixOperation s .before := by
  have hall : ∀ s ∈ ["+", "-", "!", "++", "--"], Operator.isStep s = true ∨ s = "!" ∨
      (Operator.isStep s = false ∧ s ≠ "!" ∧ Operator.isUnary s .between = true ∧
        Operator.prefixOperation s .between = Operator.prefixOperation s .before) := by decide
  have hmem : s ∈ ["+", "-", "!", "++", "--"] := by
    simpa [Operator.isUnary, Operator.isSign, Operator.isStep, Operator.stepOperations, or_assoc]
      using hs
  rcases hall s hmem with h | rfl | ⟨h, h', hunary, hname⟩
  · have hfixity : fixity s us = .before := by
      unfold fixity
      rw [if_pos h]
      cases us with
      | nil => rfl
      | cons u us => simp_all
    rw [hfixity]
    exact ⟨hs, rfl⟩
  · exact ⟨rfl, rfl⟩
  · have hfixity : fixity s us = .between := by
      unfold fixity
      rw [if_neg (by simp [h]), if_neg h']
    rw [hfixity]
    exact ⟨hunary, hname⟩

lemma fixity_of_isJoint {s : String} (hs : Operator.isJoint s = true) (us : List Tree) :
    fixity s us = .between := by
  have hall : ∀ s ∈ Operator.joints, Operator.isStep s = false ∧ s ≠ "!" := by decide
  obtain ⟨hstep, hnot⟩ := hall s (Operator.mem_joints_of_isJoint hs)
  unfold fixity
  rw [if_neg (by simp [hstep]), if_neg hnot]

lemma fixity_of_isStep {s : String} (hs : Operator.isStep s = true) {u : Tree} {us : List Tree}
    (hu : u.isOperand = true) : fixity s (u :: us) = .after := by
  simp [fixity, hs, hu]

section Place

variable (source : Source) (p : Progress) {t : Token}

lemma place_symbol {s : String} (ht : t.content = (.symbol, .text s)) :
    source.place p t = .ok (p.put t.place [.symbol t.place s (fixity s p.siblings)]) := by
  obtain ⟨hkind, hvalue⟩ := Prod.mk.inj ht
  rw [Source.place_of_isAtom (by rw [hkind]; rfl)]
  simp [atom, hkind, Token.name, hvalue, Value.plain, Progress.push_eq_put, Tree.place]

lemma place_variable {name : String} (ht : t.content = (.variable, .text name)) :
    source.place p t = .ok (p.put t.place [.variable t.place name]) := by
  obtain ⟨hkind, hvalue⟩ := Prod.mk.inj ht
  rw [Source.place_of_isAtom (by rw [hkind]; rfl)]
  simp [atom, hkind, Token.name, hvalue, Value.plain, Progress.push_eq_put, Tree.place]

lemma place_number {v : Value} (ht : t.content = (.number, v)) :
    source.place p t = .ok (p.put t.place [.literal t.place v]) := by
  obtain ⟨hkind, hvalue⟩ := Prod.mk.inj ht
  rw [Source.place_of_isAtom (by rw [hkind]; rfl)]
  simp [atom, hkind, hvalue, Progress.push_eq_put, Tree.place]

end Place

/-- Where no operand comes before them, the tokens become siblings that are read as the expression,
at a rank. -/
def IsPut (source : Source) (d : Dialect) (r : Nat) (e : Expr) (ts : List Token) : Prop :=
  ∀ p : Progress, p.siblings.head?.any Tree.isOperand = false →
    ∃ place us, ts.foldlM source.place p = .ok (p.put place us) ∧ us ≠ [] ∧ IsRead d r e us

namespace IsPut

variable {source : Source} {d : Dialect} {r : Nat} {e e' : Expr} {ts ts' : List Token}
  {t t' : Token} {s : String}

lemma of_flag {b : Bool} (h : IsPut source d (if b then 0 else e.rank) e ts)
    (hb : b = true ∨ e.rank ≤ r) : IsPut source d r e ts := by
  intro p hp
  obtain ⟨place, us, hplace, hne, hus⟩ := h p hp
  exact ⟨place, us, hplace, hne, hus.of_flag hb⟩

lemma var {name : VarName} (ht : t.content = (.variable, .text name.text)) :
    IsPut source d 0 (.var name) [t] := by
  intro p hp
  refine ⟨t.place, [.variable t.place name.text], ?_, by simp, IsRead.var name⟩
  rw [List.foldlM_cons, place_variable source p ht]
  rfl

lemma num {n : Nat} {hn : n < Numeral.bound} (ht : t.content = (.number, .int n)) :
    IsPut source d 0 (.num n hn) [t] := by
  intro p hp
  refine ⟨t.place, [.literal t.place (.int n)], ?_, by simp, IsRead.num⟩
  rw [List.foldlM_cons, place_number source p ht]
  rfl

lemma before {hs : Operator.isUnary s .before = true} (ht : t.content = (.symbol, .text s))
    (h : IsPut source d 2 e ts) : IsPut source d 2 (.before s hs e) (t :: ts) := by
  intro p hp
  obtain ⟨hunary, hname⟩ := fixity_of_isUnary hs hp
  obtain ⟨place, us, hplace, -, hus⟩ :=
    h (p.put t.place [.symbol t.place s (fixity s p.siblings)]) rfl
  refine ⟨t.place, .symbol t.place s (fixity s p.siblings) :: us, ?_, by simp,
    hus.before hunary hname⟩
  rw [List.foldlM_cons, place_symbol source p ht, ok_bind, hplace, Progress.put_put]
  rfl

/-- A symbol behind siblings is one more of them. -/
lemma foldlM_place_concat {p : Progress} {place : Location} {us : List Tree}
    (ht : t.content = (.symbol, .text s))
    (hts : ts.foldlM source.place p = .ok (p.put place us)) :
    (ts ++ [t]).foldlM source.place p =
      .ok (p.put place (us ++ [.symbol t.place s (fixity s (us.reverse ++ p.siblings))])) := by
  rw [List.foldlM_append, hts, ok_bind, List.foldlM_cons, place_symbol source _ ht, ok_bind,
    Progress.put_put]
  rfl

lemma after {hs : Operator.isStep s = true} (ht : t.content = (.symbol, .text s))
    (h : IsPut source d 0 e ts) : IsPut source d 1 (.after s hs e) (ts ++ [t]) := by
  intro p hp
  obtain ⟨place, us, hplace, -, hus⟩ := h p hp
  obtain ⟨u, rfl, hu⟩ := hus.exists_operand
  refine ⟨place, [u, .symbol t.place s .after], ?_, by simp, hus.after⟩
  rw [foldlM_place_concat ht hplace, ← fixity_of_isStep hs hu]
  rfl

/-- Two operands and the symbol between them are siblings. -/
lemma exists_joint (hs : Operator.isJoint s = true) (ht : t.content = (.symbol, .text s))
    {r' : Nat} (h : IsPut source d r e ts) (h' : IsPut source d r' e' ts') {p : Progress}
    (hp : p.siblings.head?.any Tree.isOperand = false) :
    ∃ place us us', (ts ++ t :: ts').foldlM source.place p =
        .ok (p.put place (us ++ .symbol t.place s .between :: us')) ∧
      IsRead d r e us ∧ IsRead d r' e' us' := by
  obtain ⟨place, us, hplace, -, hus⟩ := h p hp
  have hconcat := foldlM_place_concat ht hplace
  rw [fixity_of_isJoint hs] at hconcat
  obtain ⟨place', us', hplace', -, hus'⟩ :=
    h' (p.put place (us ++ [.symbol t.place s .between])) (by simp [Progress.put])
  refine ⟨place, us, us', ?_, hus, hus'⟩
  rw [List.append_cons, List.foldlM_append, hconcat, ok_bind, hplace', Progress.put_put]
  simp

lemma binary {tier : Tier} {hs : tier.holds s = true} (ht : t.content = (.symbol, .text s))
    (h : IsPut source d tier.rank e ts) (h' : IsPut source d (tier.rank - 1) e' ts') :
    IsPut source d tier.rank (.binary tier s hs e e') (ts ++ t :: ts') := by
  intro p hp
  obtain ⟨place, us, us', hplace, hus, hus'⟩ :=
    exists_joint (Operator.isJoint_of_holds hs) ht h h' hp
  exact ⟨place, _, hplace, by simp, hus.binary hus'⟩

lemma assign {hs : Operator.isAssignment s = true} (ht : t.content = (.symbol, .text s))
    (h : IsPut source d 9 e ts) (h' : IsPut source d 10 e' ts') :
    IsPut source d 10 (.assign s hs e e') (ts ++ t :: ts') := by
  intro p hp
  obtain ⟨place, us, us', hplace, hus, hus'⟩ :=
    exists_joint (Operator.isJoint_of_isAssignment hs) ht h h' hp
  exact ⟨place, _, hplace, by simp, hus.assign hus'⟩

lemma parens (ht : t.content = (Spelling.ofDelimiter '(' .leftParen rfl).content)
    (ht' : t'.content = (Spelling.ofDelimiter ')' .rightParen rfl).content)
    (h : IsPut source d 10 e ts) : IsPut source d 0 e (t :: (ts ++ [t'])) := by
  intro p hp
  have hopen : opens? t.kind = some (.rightParen, Tree.parenName) := by
    rw [show t.kind = .leftParen from congrArg Prod.fst ht]
    rfl
  have hkind : t'.kind = .rightParen := congrArg Prod.fst ht'
  obtain ⟨place, us, hplace, -, hus⟩ := h (p.openGroup t Tree.parenName .rightParen) rfl
  obtain ⟨q, hq⟩ := exists_listOf_reverse place us
  refine ⟨t.place, [.call t.place Tree.parenName [.call q Tree.listName us]], ?_, by simp,
    hus.parens (Nat.le_refl 10)⟩
  rw [List.foldlM_cons, Source.place_of_opens hopen, ok_bind, List.foldlM_append, hplace, ok_bind,
    List.foldlM_cons, Source.place_of_isCloser (by rw [hkind]; rfl),
    Progress.close?_put_openGroup p t Tree.parenName hkind, hq]
  rfl

end IsPut

/-- The tokens of a text of an expression are put like its parts are. -/
lemma Writes.isPut (source : Source) (d : Dialect) {b : Bool} {e : Expr} {xs : List Spelling}
    (h : Writes b e xs) {ts : List Token} (hmap : ts.map Token.content = xs.map Spelling.content) :
    IsPut source d (if b then 0 else e.rank) e ts := by
  induction h generalizing ts with
  | var name =>
    obtain ⟨t, rfl, ht⟩ := List.map_eq_singleton_iff.mp hmap
    exact .var ht
  | num digits h =>
    obtain ⟨t, rfl, ht⟩ := List.map_eq_singleton_iff.mp hmap
    subst h
    exact .num ht
  | before h hrank ih =>
    obtain ⟨t, ts, rfl, ht, hts⟩ := List.map_eq_cons_iff.mp hmap
    exact .before ht ((ih hts).of_flag hrank)
  | after h hrank ih =>
    rw [List.map_append] at hmap
    obtain ⟨ts, ts', rfl, hts, hts'⟩ := List.map_eq_append_iff.mp hmap
    obtain ⟨t, rfl, ht⟩ := List.map_eq_singleton_iff.mp hts'
    exact .after ht ((ih hts).of_flag (hrank.imp_right fun h => h.le))
  | @binary tier _ _ _ _ _ _ _ _ hl hr hleft hright ihl ihr =>
    rw [List.map_append] at hmap
    obtain ⟨ts, ts', rfl, hts, hts'⟩ := List.map_eq_append_iff.mp hmap
    obtain ⟨t, ts', rfl, ht, hts'⟩ := List.map_eq_cons_iff.mp hts'
    refine .binary ht ((ihl hts).of_flag hleft) ((ihr hts').of_flag (hright.imp_right fun h => ?_))
    omega
  | @assign _ _ _ _ _ e' _ _ hl hr hleft ihl ihr =>
    rw [List.map_append] at hmap
    obtain ⟨ts, ts', rfl, hts, hts'⟩ := List.map_eq_append_iff.mp hmap
    obtain ⟨t, ts', rfl, ht, hts'⟩ := List.map_eq_cons_iff.mp hts'
    refine .assign ht ((ihl hts).of_flag (hleft.imp_right fun h => ?_))
      ((ihr hts').of_flag (Or.inr e'.rank_le))
    omega
  | @parens b e xs h ih =>
    obtain ⟨t, us, rfl, ht, htail⟩ := List.map_eq_cons_iff.mp hmap
    rw [List.map_append] at htail
    obtain ⟨ts, ts', rfl, hts, hts'⟩ := List.map_eq_append_iff.mp htail
    obtain ⟨t', rfl, ht'⟩ := List.map_eq_singleton_iff.mp hts'
    exact .parens ht ht' ((ih hts).of_flag (Or.inr e.rank_le))

/-! ### The whole text -/

lemma Writes.mem_kinds {b : Bool} {e : Expr} {xs : List Spelling} (h : Writes b e xs) :
    ∀ x ∈ xs, x.kind ∈ [TokenKind.variable, .number, .symbol, .leftParen, .rightParen] := by
  induction h with
  | var | num => simp [Spelling.ofVariable, Spelling.ofDigits]
  | before h hrank ih =>
    intro x hx
    rcases List.mem_cons.mp hx with rfl | hx
    · simp [Spelling.ofSymbol]
    · exact ih x hx
  | after h hrank ih =>
    intro x hx
    rcases List.mem_append.mp hx with hx | hx
    · exact ih x hx
    · obtain rfl := List.mem_singleton.mp hx
      simp [Spelling.ofSymbol]
  | binary hl hr hleft hright ihl ihr | assign hl hr hleft ihl ihr =>
    intro x hx
    rcases List.mem_append.mp hx with hx | hx
    · exact ihl x hx
    · rcases List.mem_cons.mp hx with rfl | hx
      · simp [Spelling.ofSymbol]
      · exact ihr x hx
  | parens h ih =>
    intro x hx
    rcases List.mem_cons.mp hx with rfl | hx
    · simp [Spelling.ofDelimiter]
    · rcases List.mem_append.mp hx with hx | hx
      · exact ih x hx
      · obtain rfl := List.mem_singleton.mp hx
        simp [Spelling.ofDelimiter]

lemma exists_finish_put_start (source : Source) (place : Location) {us : List Tree}
    (hne : us ≠ []) : ∃ q, source.finish (Progress.start.put place us) =
      .ok [.call q Tree.listName us] := by
  obtain ⟨u, us', hus⟩ := List.exists_cons_of_ne_nil (List.reverse_ne_nil_iff.mpr hne)
  obtain ⟨q, hq⟩ := exists_listOf_reverse u.place us
  refine ⟨q, ?_⟩
  rw [hus] at hq
  simp [Source.finish, Progress.put, Progress.touch, Progress.start, Progress.endRegion, hus, hq]

/-- The tokens of an expression make up one region. -/
lemma Writes.exists_regions (source : Source) (d : Dialect) {b : Bool} {e : Expr}
    {xs : List Spelling} (h : Writes b e xs) {ts : List Token} {last : Token}
    (hmap : ts.map Token.content = xs.map Spelling.content) (hlast : last.kind = .eof) :
    ∃ q us, source.regions (ts ++ [last]) = .ok [.call q Tree.listName us] ∧
      IsRead d 10 e us := by
  have hkinds : ∀ t ∈ ts,
      t.kind ∈ [TokenKind.variable, .number, .symbol, .leftParen, .rightParen] := by
    intro t ht
    have hcontent : t.content ∈ xs.map Spelling.content := hmap ▸ List.mem_map_of_mem ht
    obtain ⟨x, hx, heq⟩ := List.mem_map.mp hcontent
    have hkind : x.kind = t.kind := congrArg Prod.fst heq
    exact hkind ▸ h.mem_kinds x hx
  have hmarks : marks ts = ts.map .single := marks_eq_map fun t ht => by
    have hkind := hkinds t ht
    constructor <;> intro heq <;> simp [heq] at hkind
  have hend : ∀ t ∈ ts, t.kind ≠ .eof := by
    intro t ht heq
    have hkind := hkinds t ht
    simp [heq] at hkind
  obtain ⟨place, us, hplace, hne, hus⟩ := h.isPut source d hmap .start rfl
  obtain ⟨q, hfinish⟩ := exists_finish_put_start source place hne
  refine ⟨q, us, ?_, hus.of_flag (Or.inr e.rank_le)⟩
  rw [Source.regions_append_end hend hlast, hmarks, List.foldlM_map]
  exact (congrArg (· >>= source.finish) hplace).trans hfinish

lemma exists_compile_of_region {compiler : Compiler} (hfinish : compiler.options.finish = true)
    {text file : String} {n : Nat} {region t : Tree}
    (hregion : Compiler.regionsOf compiler.options text file = .ok (n, [region]))
    (ht : (region.finish compiler.options.dialect).result = .ok t) :
    ∃ compiled, (compiler.compile text file).2.result = .ok compiled ∧ compiled.trees = [t] := by
  simp only [Compiler.compile, hregion, Compiler.treesOf, hfinish, if_true, Compiler.finishRegions,
    ht, Compiler.conclude, Collector.start, Collector.verdict]
  exact ⟨_, rfl, rfl⟩

/-- A text of one region that is finished is compiled to its tree. -/
lemma result_expression_of_region {compiler : Compiler} (hfinish : compiler.options.finish = true)
    {text file : String} {n : Nat} {region t : Tree}
    (hregion : Compiler.regionsOf compiler.options text file = .ok (n, [region]))
    (ht : (region.finish compiler.options.dialect).result = .ok t) :
    (compiler.expression text file).2.result = .ok t := by
  obtain ⟨compiled, hcompiled, htrees⟩ := exists_compile_of_region hfinish hregion ht
  simp only [Compiler.expression, hcompiled, htrees]

/-- Any text of an expression, with single blanks between its tokens and at least the parentheses
it needs, is compiled to the tree of the expression. -/
theorem result_expression_of_writes (compiler : Compiler)
    (hfinish : compiler.options.finish = true) {b : Bool} {e : Expr} {xs : List Spelling}
    (h : Writes b e xs) (file : String) :
    (compiler.expression (Spelling.spaced xs) file).2.result.map Tree.unplaced = .ok e.tree := by
  obtain ⟨ts, last, hmap, hlast, htokens⟩ := Spelling.exists_tokens_spaced xs file
  obtain ⟨q, us, hregions, vs, t, hvs, ht, htree⟩ :=
    h.exists_regions ⟨Text.lines (Spelling.spaced xs), compiler.options.functions⟩
      compiler.options.dialect hmap hlast
  have hregion : Compiler.regionsOf compiler.options (Spelling.spaced xs) file =
      .ok ((ts ++ [last]).length, [.call q Tree.listName us]) := by
    rw [Compiler.regionsOf, htokens, ok_bind, hregions]
    rfl
  have hresult := Tree.result_finish_list hvs (ht.assigned (Nat.le_refl 10)) q
  rw [result_expression_of_region hfinish hregion hresult]
  exact congrArg Except.ok htree

/-- The prefix sign binds more tightly than the product, the sum needs its parentheses, and the
target of the assignment is an operand of its addition. -/
theorem result_expression_negated_sum :
    let sum : Tree := .call .unknown "add" [.variable .unknown "a", .literal .unknown (.int 1)]
    let product : Tree := .call .unknown "multiply" [.call .unknown "neg" [sum],
      .call .unknown "postinc" [.variable .unknown "b"]]
    ((Compiler.new {}).expression "@c += - ( @a + 1 ) * @b ++" "<expr>").2.result.map
      Tree.unplaced = .ok (.call .unknown "assign" [.variable .unknown "c",
        .call .unknown "add" [.variable .unknown "c", product]]) := by
  intro sum product
  have ha := Writes.var ⟨'a', [], by decide, by simp⟩
  have hb := Writes.var ⟨'b', [], by decide, by simp⟩
  have hc := Writes.var ⟨'c', [], by decide, by simp⟩
  let one : Digits := ⟨['1'], by decide, by rw [List.forall_mem_singleton]; decide, by decide⟩
  have hone : Writes false (.num 1 one.value_lt) _ := .num one rfl
  have hsum : Writes false (.binary .additive "+" (by decide) _ _) _ :=
    ha.binary hone (Or.inr (by simp [rank])) (Or.inr (by simp [rank, Tier.rank]))
  have hneg : Writes false (.before "-" (by decide) _) _ := hsum.parens.before (Or.inl rfl)
  have hstep : Writes false (.after "++" (by decide) _) _ := hb.after (Or.inr rfl)
  have hproduct : Writes false (.binary .multiplicative "*" (by decide) _ _) _ :=
    hneg.binary hstep (Or.inr (by simp [rank, Tier.rank])) (Or.inr (by simp [rank, Tier.rank]))
  have hassign : Writes false (.assign "+=" (by decide) _ _) _ :=
    hc.assign hproduct (Or.inr (by simp [rank]))
  exact result_expression_of_writes (Compiler.new {}) rfl hassign "<expr>"

end Expr

end LineScript
