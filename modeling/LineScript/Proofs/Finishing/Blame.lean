import LineScript.Proofs.Finishing.Complaints
import LineScript.Registry.Builtin

/-!
# Blamed tokens

A diagnostic about a region of a script is at the place of one of its tokens and names this token:
a symbol, a label, a bare function name, or what begins a bracket or brace that holds too much. No
call that a sweep has made is ever blamed, although it stands at the place of a token too.
-/

namespace LineScript

namespace Grouping

/-- The complaint names a token, with those behind it. -/
inductive Names : Token → List Token → Complaint → Prop where
  | symbol {t : Token} {ts : List Token} (ht : t.kind = .symbol) :
      Names t ts (.misplacedSymbol t.name)
  | compound {t : Token} {ts : List Token} (ht : t.kind = .symbol)
      (hname : (Operator.compound? t.name).isSome = true) : Names t ts (.missingValue t.name)
  | label {t u : Token} {ts : List Token} (ht : canLabel t.kind = true) (hu : u.kind = .colon) :
      Names t (u :: ts) (.misplacedSymbol (t.name ++ ":"))
  | identifier {t : Token} {ts : List Token} (ht : t.kind = .word) :
      Names t ts (.misplacedIdentifier t.name)
  | bracket {t : Token} {ts : List Token} (ht : t.kind = .leftBracket) (n : Int) :
      Names t ts (.crowdedGroup "[]" n)
  | brace {t : Token} {ts : List Token} (ht : t.kind = .leftBrace) (n : Int) :
      Names t ts (.crowdedGroup "\x7b\x7d" n)
  | bracketCall {t u : Token} {ts : List Token} (ht : t.kind = .word)
      (hname : t.name = Tree.bracketName) (hu : u.kind = .leftParen) (n : Int) :
      Names t (u :: ts) (.crowdedGroup "[]" n)
  | braceCall {t u : Token} {ts : List Token} (ht : t.kind = .word)
      (hname : t.name = Tree.braceName) (hu : u.kind = .leftParen) (n : Int) :
      Names t (u :: ts) (.crowdedGroup "\x7b\x7d" n)

/-- The diagnostic is at the place of a token of the list and names this token. -/
def Blames (tokens : List Token) (e : Diagnostic) : Prop :=
  ∃ before t behind, tokens = before ++ t :: behind ∧ e.place = some t.place ∧
    Names t behind e.complaint

/-- A failure that is no diagnostic, or one that blames a token. -/
def BlamesIfAny (tokens : List Token) (f : Failure) : Prop :=
  ∀ e, f = .diagnostic e → Blames tokens e

/-- The symbols, labels and function names among such trees are those of tokens. -/
def IsBlamable (tokens : List Token) : Tree → Prop
  | .symbol p s _ => ∃ t ∈ tokens, t.kind = .symbol ∧ t.place = p ∧ t.name = s
  | .label p n => ∃ before t u behind, tokens = before ++ t :: u :: behind ∧
      canLabel t.kind = true ∧ u.kind = .colon ∧ t.place = p ∧ t.name = n
  | .identifier p n => ∃ t ∈ tokens, t.kind = .word ∧ t.place = p ∧ t.name = n
  | _ => True

variable {tokens ts before behind : List Token} {t : Token} {u : Tree} {c : Complaint}

lemma blamesIfAny_of_names (hsplit : tokens = before ++ t :: behind) (h : Names t behind c) :
    BlamesIfAny tokens (.diagnostic (.of c t.place)) := by
  rintro _ ⟨⟩
  exact ⟨before, t, behind, hsplit, rfl, h⟩

lemma blamesIfAny_of_mem (ht : t ∈ tokens) (h : ∀ behind, Names t behind c) :
    BlamesIfAny tokens (.diagnostic (.of c t.place)) := by
  obtain ⟨before, behind, hsplit⟩ := List.append_of_mem ht
  exact blamesIfAny_of_names hsplit (h behind)

/-- What is wrong with trees of tokens is wrong with the tokens. -/
lemma accounts_isBlamable (hsymbols : Tree.KnowsSymbols tokens) (registry : Registry) :
    Reduction.Accounts registry (IsBlamable tokens) (BlamesIfAny tokens) where
  operand u hu := by
    cases u with
    | symbol | label | identifier => cases hu
    | _ => trivial
  hole _ e he := by cases he
  unknown p s f h hs := by
    obtain ⟨t, ht, hkind, rfl, rfl⟩ := h
    rw [hsymbols t ht hkind] at hs
    cases hs
  symbol p s f h := by
    obtain ⟨t, ht, hkind, rfl, rfl⟩ := h
    exact blamesIfAny_of_mem ht fun _ => .symbol hkind
  compound p s f h hcompound := by
    obtain ⟨t, ht, hkind, rfl, rfl⟩ := h
    exact blamesIfAny_of_mem ht fun _ => .compound hkind hcompound
  label p n h := by
    obtain ⟨before, t, u, behind, hsplit, ht, hu, rfl, rfl⟩ := h
    exact blamesIfAny_of_names hsplit (.label ht hu)
  identifier p n h := by
    obtain ⟨t, ht, hkind, rfl, rfl⟩ := h
    exact blamesIfAny_of_mem ht fun _ => .identifier hkind
  unresolved p n _ _ e he := by cases he

lemma isBlamable_of_represents (hsplit : tokens = before ++ t :: ts) (h : Represents t ts u) :
    IsBlamable tokens u := by
  have ht : t ∈ tokens := by simp [hsplit]
  cases h with
  | label hlabel hu => exact ⟨before, t, _, _, hsplit, hlabel, hu, rfl, rfl⟩
  | symbol hkind => exact ⟨t, ht, hkind, rfl, rfl⟩
  | identifier hkind => exact ⟨t, ht, hkind, rfl, rfl⟩
  | _ => trivial

lemma name_of_opens {kind closer : TokenKind} {name : String}
    (h : opens? kind = some (closer, name)) :
    kind = .leftParen ∧ name = Tree.parenName ∨ kind = .leftBracket ∧ name = Tree.bracketName ∨
      kind = .leftBrace ∧ name = Tree.braceName := by
  cases kind <;> simp_all [opens?]

/-- Only brackets and braces, and calls of their names, can hold too much. -/
lemma crowds_of_represents {p : Location} {name : String} {children : List Tree}
    (hsplit : tokens = before ++ t :: ts) (h : Represents t ts (.call p name children)) :
    Tree.Crowds (BlamesIfAny tokens) p name := by
  cases h with
  | call ht hu =>
    constructor
    · exact fun hname n => blamesIfAny_of_names hsplit (.bracketCall ht hname hu n)
    · exact fun hname n => blamesIfAny_of_names hsplit (.braceCall ht hname hu n)
  | group hopens =>
    rcases name_of_opens hopens with ⟨-, rfl⟩ | ⟨hkind, rfl⟩ | ⟨hkind, rfl⟩
    · constructor <;> exact fun hname => absurd hname (by decide)
    · refine ⟨fun _ n => blamesIfAny_of_names hsplit (.bracket hkind n), ?_⟩
      exact fun hname => absurd hname (by decide)
    · refine ⟨fun hname => absurd hname (by decide), ?_⟩
      exact fun _ n => blamesIfAny_of_names hsplit (.brace hkind n)

lemma crowds_listName (p : Location) :
    Tree.Crowds (BlamesIfAny tokens) p Tree.listName := by
  constructor <;> intro hname <;> exact absurd hname (by decide)

/-- What is wrong with a region of a script is wrong at a token that is named. -/
theorem finish_blames_token {s : Source} {source file : String} {regions : List Tree}
    {region : Tree} {e : Diagnostic} (htokens : LineScript.tokens source file = .ok tokens)
    (hregions : s.regions tokens = .ok regions) (hregion : region ∈ regions) (d : Dialect)
    (h : (region.finish d).result = .error (.diagnostic e)) :
    ∃ before t behind, tokens = before ++ t :: behind ∧ e.place = some t.place ∧
      Names t behind e.complaint := by
  have hreads := tokens_eq_ok_iff.mp htokens
  obtain ⟨ts, last, rfl, hlast, heof⟩ := hreads.exists_last
  have hsymbols : Tree.KnowsSymbols (ts ++ [last]) := fun t ht hkind =>
    hreads.isKnown_name ht hkind
  have hparts : region.All (Tree.IsAccountable (IsBlamable (ts ++ [last]))
      (BlamesIfAny (ts ++ [last]))) := by
    refine all_of_represents ?_ hlast heof ?_ hregions region hregion
    · rintro l
      refine ⟨trivial, ?_⟩
      rintro p name children ⟨⟩
      exact crowds_listName _
    · intro before t us u hsplit hu
      refine ⟨isBlamable_of_represents hsplit hu, ?_⟩
      rintro p name children rfl
      exact crowds_of_represents hsplit hu
  exact (Tree.ends_finish (accounts_isBlamable hsymbols d.registry) hparts).of_error h e rfl

/-- In `[1, k: 2 + b:]` the bracket holds two lists, but it is the label without a value inside
it that is blamed first. -/
theorem finish_blames_label_in_bracket :
    let place (column : Int) : Location := ⟨"f.ms", 1, column⟩
    let bracket : Token := ⟨.leftBracket, .text "[", place 1⟩
    let label : Token := ⟨.word, .text "b", place 12⟩
    let colon : Token := ⟨.colon, .text ":", place 13⟩
    let ts : List Token := [bracket, ⟨.number, .int 1, place 2⟩, ⟨.comma, .text ",", place 3⟩,
      ⟨.word, .text "k", place 5⟩, ⟨.colon, .text ":", place 6⟩, ⟨.number, .int 2, place 8⟩,
      ⟨.symbol, .text "+", place 10⟩, label, colon, ⟨.rightBracket, .text "]", place 14⟩,
      ⟨.eof, .null, place 15⟩]
    let lists : List Tree := [.call (place 2) Tree.listName [.literal (place 2) (.int 1)],
      .call (place 5) Tree.listName [.label (place 5) "k", .literal (place 8) (.int 2),
        .symbol (place 10) "+" .between, .label (place 12) "b"]]
    let region : Tree := .call (place 1) Tree.listName [.call (place 1) Tree.bracketName lists]
    let e : Diagnostic := .of (.misplacedSymbol "b:") (place 12)
    LineScript.tokens "[1, k: 2 + b:]" "f.ms" = .ok ts ∧
    (Source.mk [] .builtin).regions ts = .ok [region] ∧ region ∈ [region] ∧
    (region.finish ⟨.builtin, .list⟩).result = .error (.diagnostic e) ∧
    ∃ before t behind, ts = before ++ t :: behind ∧ e.place = some t.place ∧
      Names t behind e.complaint := by
  intro place bracket label colon ts lists region e
  have htokens : LineScript.tokens "[1, k: 2 + b:]" "f.ms" = .ok ts :=
    Traced.eq_ok_of_toOption (by decide +kernel)
  have hregions : (Source.mk [] .builtin).regions ts = .ok [region] := rfl
  have hregion : region ∈ [region] := List.mem_singleton_self region
  have hfinish : (region.finish ⟨.builtin, .list⟩).result = .error (.diagnostic e) := rfl
  exact ⟨htokens, hregions, hregion, hfinish,
    finish_blames_token htokens hregions hregion ⟨.builtin, .list⟩ hfinish⟩

end Grouping

end LineScript
