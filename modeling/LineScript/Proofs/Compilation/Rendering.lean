import LineScript.Proofs.Compilation.Naming
import LineScript.Proofs.Finishing.Composition
import LineScript.Proofs.Tree.Unplaced
import LineScript.Tree.Rendering

/-!
# Rendered trees are scripts

A compiled tree of constants, variables, calls, brackets and braces is rendered as a script of one
region, and that script is compiled to the same tree again (`render_compiles_back`). Between the two
stand the tokens of the tree: its text is read as these tokens (`Tree.spelledAs_text`), and wherever
they stand they are grouped and finished to the tree (`Tree.readAs_contents`).
-/

namespace LineScript

open Text

/-! ### Constants -/

lemma quotes_quoteChar {quote : Char} (hquote : quote = '\'' ∨ quote = '"') {chars : List Char}
    (h : ∀ c ∈ chars, isPrintable c = true ∨ c ∈ ['\n', '\r', '\t']) :
    Quotes quote chars (chars.flatMap (quoteChar quote)) := by
  induction chars with
  | nil => exact .nil
  | cons c chars ih =>
    obtain ⟨hc, hchars⟩ := List.forall_mem_cons.mp h
    have ih := ih hchars
    rw [List.flatMap_cons, quoteChar]
    split_ifs with hmeaning hfeed hreturn htab hprintable
    · have hsame : Lexeme.unescape c = c := by
        rcases hquote with rfl | rfl <;> rcases (by simpa using hmeaning) with rfl | rfl <;> rfl
      have hescaped := Quotes.escaped c ih
      rw [hsame] at hescaped
      exact hescaped
    · exact hfeed ▸ .escaped 'n' ih
    · exact hreturn ▸ .escaped 'r' ih
    · exact htab ▸ .escaped 't' ih
    · obtain ⟨hne, hescape⟩ : c ≠ quote ∧ c ≠ '\\' := by simpa using hmeaning
      exact .plain hne hfeed hescape ih
    all_goals simp [hfeed, hreturn, htab, hprintable] at hc

namespace Value

/-- A constant that is read back as it is written: no floating point number, no integer with too
many digits, and no text with unprintable characters other than the ends of lines and the tab. -/
def IsWritable : Value → Prop
  | .null | .bool _ => True
  | .text s => ∀ c ∈ s.toList, isPrintable c = true ∨ c ∈ ['\n', '\r', '\t']
  | .int n => n < Numeral.bound
  | .float _ => False

instance : DecidablePred IsWritable
  | .null | .bool _ => inferInstanceAs (Decidable True)
  | .text s => List.decidableBAll (fun c => isPrintable c = true ∨ c ∈ ['\n', '\r', '\t']) s.toList
  | .int n => inferInstanceAs (Decidable (n < Numeral.bound))
  | .float _ => inferInstanceAs (Decidable False)

/-- The token that spells the constant. -/
def content : Value → TokenKind × Value
  | .null => (.nullWord, .text "null")
  | .bool true => (.trueWord, .text "true")
  | .bool false => (.falseWord, .text "false")
  | .text s => (.string, .text s)
  | v => (.number, v)

lemma spells_content {v : Value} (h : v.IsWritable) (hint : ∀ n, v = .int n → 0 ≤ n) :
    Spells v.content.1 v.content.2 v.render.toList := by
  cases v with
  | null => exact Spells.of_isNameText (s := "null") (by decide)
  | bool b =>
    cases b with
    | true => exact Spells.of_isNameText (s := "true") (by decide)
    | false => exact Spells.of_isNameText (s := "false") (by decide)
  | text s =>
    have hquote : quoteFor s.toList = '\'' ∨ quoteFor s.toList = '"' := by
      unfold quoteFor
      split_ifs <;> simp
    have hspells := Spells.string hquote (quotes_quoteChar hquote h)
    rw [String.ofList_toList] at hspells
    rw [render, quoted, String.toList_ofList]
    exact hspells
  | int n =>
    obtain ⟨k, rfl⟩ := Int.eq_ofNat_of_zero_le (hint n rfl)
    obtain ⟨digits, hchars, hvalue⟩ := Digits.exists_value_eq (Int.ofNat_lt.mp h)
    have hrender : (Value.int k).render = String.ofList (Nat.toDigits 10 k) := rfl
    have hspells := Spells.decimal digits
    rw [hchars, hvalue] at hspells
    rw [hrender, String.toList_ofList]
    exact hspells
  | float x => exact absurd h id

lemma isTooLarge_eq_false {n : Int} (h : n < Numeral.bound) (hn : 0 ≤ n) :
    isTooLarge (.int n) = false := by
  unfold isTooLarge Numeral.isTooLarge
  generalize Numeral.bound = bound at h
  rw [decide_eq_false_iff_not]
  omega

end Value

/-! ### Trees -/

namespace Tree

open Grouping Traced

/-- A constant that can be written, a variable, a call, a bracket or a brace. -/
def IsPlain : Tree → Prop
  | .literal _ v => v.IsWritable
  | .variable .. | .call .. | .bracket .. | .brace .. => True
  | _ => False

instance : DecidablePred IsPlain
  | .literal _ v => inferInstanceAs (Decidable v.IsWritable)
  | .variable .. | .call .. | .bracket .. | .brace .. => inferInstanceAs (Decidable True)
  | .hole | .symbol .. | .label .. | .identifier .. | .void _ | .entry .. | .join .. =>
    inferInstanceAs (Decidable False)

mutual

/-- The contents of the tokens that a tree is written with. -/
def contents : Tree → List (TokenKind × Value)
  | .literal _ v => [v.content]
  | .variable _ n => [(.variable, .text n)]
  | .call _ n ts =>
    (.word, .text n) :: (.leftParen, .text "(") :: (contentsList ts ++ [(.rightParen, .text ")")])
  | .bracket _ t => (.leftBracket, .text "[") :: (contents t ++ [(.rightBracket, .text "]")])
  | .brace _ t => (.leftBrace, .text "\x7b") :: (contents t ++ [(.rightBrace, .text "\x7d")])
  | _ => []

/-- The contents of trees with commas between them. -/
def contentsList : List Tree → List (TokenKind × Value)
  | [] => []
  | [t] => contents t
  | t :: ts => contents t ++ (.comma, .text ",") :: contentsList ts

end

variable {d : Dialect} {registry : Registry} {t : Tree} {ts : List Tree} {tokens : List Token}

lemma contentsList_cons_cons (t u : Tree) (ts : List Tree) : contentsList (t :: u :: ts) =
    t.contents ++ (.comma, .text ",") :: contentsList (u :: ts) := rfl

lemma spelledAs_textList (h : ∀ t ∈ ts, SpelledAs t.text.toList t.contents) :
    SpelledAs (textList ts).toList (contentsList ts) := by
  induction ts with
  | nil => exact .nil
  | cons t ts ih =>
    obtain ⟨ht, hts⟩ := List.forall_mem_cons.mp h
    cases ts with
    | nil => exact ht
    | cons u ts =>
      have htext : (textList (t :: u :: ts)).toList =
          t.text.toList ++ ',' :: ' ' :: (textList (u :: ts)).toList := by simp [textList]
      rw [htext, contentsList_cons_cons]
      exact ht.append (by decide) (.delimiter rfl (ih hts).blank)

/-- The text of a tree is read as these tokens. -/
theorem spelledAs_text (hplain : t.All IsPlain) (hnamed : t.All IsNamed) :
    SpelledAs t.text.toList t.contents := by
  induction t with
  | literal p v =>
    refine .of_spells (Value.spells_content hplain.self ?_)
    rintro n rfl
    exact hnamed.self
  | «variable» p n =>
    obtain ⟨name, rfl⟩ := hnamed.self
    have htext : (Tree.variable p name.text).text.toList = '@' :: name.chars := by
      simp [text, VarName.text]
    rw [htext]
    exact .of_spells (.atName name)
  | call p n ts ih =>
    obtain ⟨name, rfl, hword⟩ := hnamed.self
    have hspells := Spells.word name
    rw [hword] at hspells
    have hts : ∀ t ∈ ts, SpelledAs t.text.toList t.contents := fun t ht =>
      ih t ht (hplain.child ht) (hnamed.child ht)
    have htext : (Tree.call p name.text ts).text.toList =
        name.chars ++ '(' :: ((textList ts).toList ++ [')']) := by
      simp [text, VarName.text]
    rw [htext]
    exact (SpelledAs.of_spells (x := (.word, .text name.text)) hspells).append (by decide)
      ((spelledAs_textList hts).enclosed rfl rfl (by decide))
  | bracket p t ih =>
    have ht := ih (hplain.child List.mem_cons_self) (hnamed.child List.mem_cons_self)
    have htext : (Tree.bracket p t).text.toList = '[' :: (t.text.toList ++ [']']) := by simp [text]
    rw [htext]
    exact ht.enclosed rfl rfl (by decide)
  | brace p t ih =>
    have ht := ih (hplain.child List.mem_cons_self) (hnamed.child List.mem_cons_self)
    have htext : (Tree.brace p t).text.toList = '\x7b' :: (t.text.toList ++ ['\x7d']) := by
      simp [text]
    rw [htext]
    exact ht.enclosed rfl rfl (by decide)
  | _ => exact absurd hplain.self id

/-! ### Tokens that are read as a tree -/

lemma atom_of_content (registry : Registry) {t : Token} {v : Value}
    (h : t.content = v.content) :
    isAtom t.kind = true ∧ atom registry [] t = .literal t.place v := by
  obtain ⟨kind, value, place⟩ := t
  obtain ⟨rfl, rfl⟩ := Prod.mk.inj h
  cases v with
  | bool b => cases b <;> exact ⟨rfl, rfl⟩
  | _ => exact ⟨rfl, rfl⟩

/-- Tokens with these contents are read as the tree, wherever they stand. -/
def ReadAs (d : Dialect) (xs : List (TokenKind × Value)) (t : Tree) : Prop :=
  ∀ tokens : List Token, tokens.map Token.content = xs →
    ∃ u, u.unplaced = t.unplaced ∧ CompilesTo d tokens (.ok u)

lemma exists_separated (hne : ts ≠ []) (h : ∀ t ∈ ts, ReadAs d t.contents t)
    (htokens : tokens.map Token.content = contentsList ts) : ∃ (tss : List (List Token))
    (us : List Tree), Separated tss tokens ∧ List.Forall₂ (CompilesTo d) tss (us.map .ok) ∧
      us.map unplaced = ts.map unplaced := by
  induction ts generalizing tokens with
  | nil => exact absurd rfl hne
  | cons t ts ih =>
    obtain ⟨ht, hts⟩ := List.forall_mem_cons.mp h
    cases ts with
    | nil =>
      obtain ⟨u, hu, hcompiles⟩ := ht tokens htokens
      exact ⟨[tokens], [u], .single tokens, .cons hcompiles .nil, by simp [hu]⟩
    | cons v ts =>
      rw [contentsList_cons_cons] at htokens
      obtain ⟨first, rest, rfl, hfirst, hrest⟩ := List.map_eq_append_iff.mp htokens
      obtain ⟨comma, rest, rfl, hcomma, hrest⟩ := List.map_eq_cons_iff.mp hrest
      obtain ⟨u, hu, hcompiles⟩ := ht first hfirst
      obtain ⟨tss, us, hseparated, hall, hus⟩ := ih (by simp) hts hrest
      exact ⟨first :: tss, u :: us, .cons (congrArg Prod.fst hcomma) hseparated,
        .cons hcompiles hall, by simp [hu, hus]⟩

lemma exists_enclosed {o c : TokenKind × Value} {xs : List (TokenKind × Value)}
    (h : tokens.map Token.content = o :: (xs ++ [c])) : ∃ opener body closer,
      tokens = opener :: (body ++ [closer]) ∧ opener.content = o ∧ body.map Token.content = xs ∧
        closer.content = c := by
  obtain ⟨opener, rest, rfl, hopener, hrest⟩ := List.map_eq_cons_iff.mp h
  obtain ⟨body, last, rfl, hbody, hlast⟩ := List.map_eq_append_iff.mp hrest
  obtain ⟨closer, rfl, hcloser⟩ := List.map_eq_singleton_iff.mp hlast
  exact ⟨opener, body, closer, rfl, hopener, hbody, hcloser⟩

/-- One tree between the delimiters of a group. -/
lemma ReadAs.exists_sole {o c : TokenKind × Value} {xs : List (TokenKind × Value)} {name : String}
    (h : ReadAs d xs t) (hgroup : opens? o.1 = some (c.1, name))
    (htokens : tokens.map Token.content = o :: (xs ++ [c])) :
    ∃ p u, u.unplaced = t.unplaced ∧ CompilesTo d tokens (finishCall d p name [u]).result := by
  obtain ⟨opener, body, closer, rfl, rfl, hbody, rfl⟩ := exists_enclosed htokens
  obtain ⟨u, hu, hcompiles⟩ := h body hbody
  have hcontent : List.Forall₂ (CompilesTo d) [body] ([u].map .ok) := .cons hcompiles .nil
  exact ⟨opener.place, u, hu, compilesTo_of_ok (.group hgroup) (.single body) hcontent⟩

/-- The tokens that a tree is written with are read as the tree. -/
theorem readAs_contents (hplain : t.All IsPlain) (hnormal : IsNormal registry t) :
    ReadAs d t.contents t := by
  induction t with
  | literal p v =>
    intro tokens htokens
    obtain ⟨t, rfl, ht⟩ := List.map_eq_singleton_iff.mp htokens
    obtain ⟨hkind, hatom⟩ := atom_of_content d.registry ht
    exact ⟨.literal t.place v, rfl, compilesTo_atom hkind hatom rfl trivial⟩
  | «variable» p n =>
    intro tokens htokens
    obtain ⟨⟨kind, value, place⟩, rfl, ht⟩ := List.map_eq_singleton_iff.mp htokens
    obtain ⟨rfl, rfl⟩ := Prod.mk.inj ht
    exact ⟨.variable place n, rfl, compilesTo_atom rfl rfl rfl trivial⟩
  | call p n ts ih =>
    obtain ⟨hn, hnormal⟩ := isNormal_call_iff.mp hnormal
    have hts : ∀ t ∈ ts, ReadAs d t.contents t := fun t ht =>
      ih t ht (hplain.child ht) (hnormal t ht)
    intro tokens htokens
    obtain ⟨f, rest, rfl, hf, hrest⟩ := List.map_eq_cons_iff.mp htokens
    obtain ⟨o, body, c, rfl, ho, hbody, hc⟩ := exists_enclosed hrest
    obtain rfl : f.name = n := congrArg (fun x => x.2.plain) hf
    have hword : f.kind = .word := congrArg Prod.fst hf
    have hopener : o.kind = .leftParen := congrArg Prod.fst ho
    have hcloser : c.kind = .rightParen := congrArg Prod.fst hc
    -- a call without arguments has no list between its parentheses, not even an empty one
    by_cases hne : ts = []
    · subst hne
      obtain rfl := List.map_eq_nil_iff.mp hbody
      exact ⟨.call f.place f.name [], rfl, compilesTo_bare hword hopener hcloser hn⟩
    · obtain ⟨tss, us, hseparated, hall, hus⟩ := exists_separated hne hts hbody
      have hcall := compilesTo_of_ok (.call hword hopener hcloser) hseparated hall
      rw [finishCall_eq_pure hn] at hcall
      exact ⟨_, by simp [unplaced, unplacedList_eq_map, hus], hcall⟩
  | bracket p t ih =>
    have ht := ih (hplain.child List.mem_cons_self) (isNormal_bracket_iff.mp hnormal)
    intro tokens htokens
    obtain ⟨q, u, hu, hbracket⟩ := ht.exists_sole rfl htokens
    rw [result_finishCall_bracketName] at hbracket
    exact ⟨.bracket q u, by simp [unplaced, hu], hbracket⟩
  | brace p t ih =>
    have ht := ih (hplain.child List.mem_cons_self) (isNormal_brace_iff.mp hnormal)
    intro tokens htokens
    obtain ⟨q, u, hu, hbrace⟩ := ht.exists_sole rfl htokens
    rw [result_finishCall_braceName] at hbrace
    exact ⟨.brace q u, by simp [unplaced, hu], hbrace⟩
  | _ => exact absurd hplain.self id

/-! ### Rendering -/

lemma textFaultList?_eq_none (h : ∀ t ∈ ts, t.textFault? = none) : textFaultList? ts = none := by
  induction ts with
  | nil => rfl
  | cons t ts ih =>
    obtain ⟨ht, hts⟩ := List.forall_mem_cons.mp h
    rw [textFaultList?, ht, ih hts]
    rfl

/-- Such a tree has a text. -/
lemma render_eq (hplain : t.All IsPlain) (hnamed : t.All IsNamed) : t.render = .ok t.text := by
  have hfault : t.textFault? = none := by
    induction t with
    | literal p v =>
      have hv : v.IsWritable := hplain.self
      have hnumber : v.isTooLarge = false := by
        cases v with
        | int n => exact Value.isTooLarge_eq_false hv hnamed.self
        | _ => rfl
      rw [textFault?, hnumber]
      rfl
    | «variable» => rfl
    | call p n ts ih =>
      exact textFaultList?_eq_none fun t ht =>
        ih t ht (hplain.child ht) (hnamed.child ht)
    | bracket p t ih | brace p t ih =>
      exact ih (hplain.child List.mem_cons_self) (hnamed.child List.mem_cons_self)
    | _ => exact absurd hplain.self id
  rw [render, hfault]

end Tree

/-! ### Scripts -/

namespace Compiler

open Grouping Traced

variable {options : Options} {source file : String} {compiled : Compiled} {tree : Tree}

lemma isNormal_of_resultOf (hfinish : options.finish = true)
    (hfunctions : options.functions = .builtin) (h : resultOf options source file = .ok compiled) :
    ∀ t ∈ compiled.trees, t.IsNormal .builtin := by
  obtain ⟨n, regions, hregions, htrees⟩ := exists_regions_of_resultOf h
  obtain ⟨ts, hshape⟩ := isRegion_of_regionsOf hregions
  rw [hfunctions] at hshape
  refine Tree.forall_of_forall₂ (Tree.forall₂_imp_of_mem htrees fun region hregion t ht => ?_)
  rw [treat, if_pos hfinish] at ht
  have hregion := hshape region hregion
  exact (Tree.closed_isNormal Tree.hidesStructure_builtin _).of_result_finish hregion
    (Tree.isCallable_of_isRegion hregion) ht

/-- A text of tokens that compile to a tree is a script of one region with that tree. -/
lemma resultOf_of_compilesTo (hfinish : options.finish = true) {text : String} {ts : List Token}
    {last : Token} (htokens : tokens text file = .ok (ts ++ [last])) (hlast : last.kind = .eof)
    (h : Tree.CompilesTo options.dialect ts (.ok tree)) :
    (∃ n region, regionsOf options text file = .ok (n, [region])) ∧
      ∃ compiled, resultOf options text file = .ok compiled ∧ compiled.trees = [tree] := by
  obtain ⟨region, hregion, htree⟩ := h
  have hsource : (Source.mk (Text.lines text) options.functions).regions (ts ++ [last]) =
      .ok [region] := hregion.regions _ last hlast
  have hregions : regionsOf options text file = .ok ((ts ++ [last]).length, [region]) := by
    rw [regionsOf, htokens, ok_bind, hsource]
    rfl
  refine ⟨⟨_, region, hregions⟩, ?_⟩
  have htreat : (treat options region).result = .ok tree := by rwa [treat, if_pos hfinish]
  have hnone : complaints options [region] = [] := complaints_cons_of_ok htreat
  have htrees : outcomes options [region] = [tree] := by
    simp [outcomes, htreat, Except.toOption]
  rw [← htrees]
  exact ((resultOf_of_regionsOf hregions).resolve_right fun h => h.1 hnone).2

/-- The text of a compiled tree of constants, variables, calls, brackets and braces is a script of
one region, which is compiled to the same tree. -/
theorem render_compiles_back (hfinish : options.finish = true)
    (hfunctions : options.functions = .builtin)
    (hcompiled : resultOf options source file = .ok compiled) (htree : tree ∈ compiled.trees)
    (hplain : tree.All Tree.IsPlain) (file' : String) :
    ∃ text, tree.render = .ok text ∧
      (∃ n region, regionsOf options text file' = .ok (n, [region])) ∧
      ∃ again, resultOf options text file' = .ok again ∧
        again.trees.map Tree.unplaced = [tree.unplaced] := by
  have hnamed := all_isNamed_of_resultOf hcompiled tree htree
  have hnormal := isNormal_of_resultOf hfinish hfunctions hcompiled tree htree
  obtain ⟨ts, last, hts, hlast, htokens⟩ :=
    (Tree.spelledAs_text hplain hnamed).spelled.exists_tokens file'
  obtain ⟨u, hu, hcompiles⟩ := Tree.readAs_contents (d := options.dialect) hplain hnormal ts hts
  obtain ⟨hregion, again, hagain, htrees⟩ :=
    resultOf_of_compilesTo hfinish htokens (congrArg Prod.fst hlast) hcompiles
  exact ⟨tree.text, Tree.render_eq hplain hnamed, hregion, again, hagain, by rw [htrees, ← hu]; rfl⟩

/-- A sum is rendered with its string in other quotes and its number in decimal digits. -/
theorem render_compiles_back_sum :
    let options : Options := {}
    let source := "'it\\'s\\t' + f(0x1F, \x7b @a \x7d, null)"
    options.finish = true ∧ options.functions = .builtin ∧
    ∃ compiled tree, resultOf options source "f.ms" = .ok compiled ∧ tree ∈ compiled.trees ∧
      tree.All Tree.IsPlain ∧ tree.text = "add(\"it's\\t\", f(31, \x7b@a\x7d, null))" ∧
      ∃ text, tree.render = .ok text ∧
        (∃ n region, regionsOf options text "g.ms" = .ok (n, [region])) ∧
        ∃ again, resultOf options text "g.ms" = .ok again ∧
          again.trees.map Tree.unplaced = [tree.unplaced] := by
  intro options source
  have hcompiles : ((resultOf options source "f.ms").toOption.bind fun c => c.trees.head?).any
      (fun tree => decide (tree.All Tree.IsPlain) &&
        tree.text = "add(\"it's\\t\", f(31, \x7b@a\x7d, null))") = true := by decide +kernel
  obtain ⟨tree, htree, htests⟩ := (Option.any_eq_true _ _).mp hcompiles
  obtain ⟨compiled, hcompiled, htree⟩ := Option.bind_eq_some_iff.mp htree
  have hcompiled := eq_ok_of_toOption hcompiled
  have htree := List.mem_of_head? htree
  obtain ⟨hplain, htext⟩ : tree.All Tree.IsPlain ∧
      tree.text = "add(\"it's\\t\", f(31, \x7b@a\x7d, null))" := by simpa using htests
  exact ⟨rfl, rfl, compiled, tree, hcompiled, htree, hplain, htext,
    render_compiles_back rfl rfl hcompiled htree hplain "g.ms"⟩

end Compiler

end LineScript
