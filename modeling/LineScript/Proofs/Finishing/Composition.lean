import LineScript.Proofs.Finishing.NormalForm
import LineScript.Proofs.Finishing.Relocation
import LineScript.Proofs.Grouping.Composition

/-!
# Groups of finished regions

What a group becomes depends on nothing but what its arguments become by themselves: their finished
trees are its children, and the first failure among them is its failure.
-/

namespace LineScript

namespace Tree

open Grouping Reduction Traced

variable {d : Dialect} {p place : Location} {name : String} {t : Tree} {ts us : List Tree}
  {e : Failure} {r : Except Failure Tree} {tokens body grouped : List Token}

/-- The tokens by themselves make up a region in which no line ends outside of all groups, and it
is finished with the given outcome. -/
def CompilesTo (d : Dialect) (tokens : List Token) (r : Except Failure Tree) : Prop :=
  ∃ region, FormsRegion d.registry tokens region ∧ (finish d region).result = r

/-! ### Trees that stand for themselves -/

/-- Alone in a list the tree stands for itself. -/
def IsWhole : Tree → Prop
  | .hole | .symbol .. | .label .. => False
  | _ => True

lemma result_reduce_singleton (h : t.IsWhole) (d : Dialect) (p : Location) :
    (reduce d p [t]).result = .ok t := by
  cases t <;> first | rfl | exact absurd h id

lemma isWhole_of_result_reduce (h : (reduce d p ts).result = .ok t) : t.IsWhole := by
  obtain ⟨hknown, us, hrewrites, hsymbol, hsettled⟩ := exists_rewrites h
  have hhole := ne_hole_of_rewrites hrewrites fun u hu => (hknown u hu).1
  cases hsettled with
  | single hlabel =>
    have hne := hhole t List.mem_cons_self
    have hsymbol := hsymbol t List.mem_cons_self
    cases t <;> simp_all [IsWhole, isSymbol, isLabel]
  | entry => trivial
  | call => trivial
  | join => trivial

lemma isWhole_of_result_finishCall (h : (finishCall d p name ts).result = .ok t)
    (hts : ∀ u ∈ ts, u.IsWhole) : t.IsWhole := by
  cases finishedCall_of_result h with
  | list h => exact isWhole_of_result_reduce h
  | parenList h => exact isWhole_of_result_reduce h
  | paren h =>
    cases h with
    | void => trivial
    | tree => exact hts t List.mem_cons_self
  | bracket => trivial
  | brace => trivial
  | call => trivial

lemma CompilesTo.isWhole (h : CompilesTo d tokens (.ok t)) : t.IsWhole := by
  obtain ⟨region, hregion, ht⟩ := h
  obtain ⟨p, children, rfl⟩ := hregion.eq_list
  obtain ⟨us, -, hreduce⟩ := result_reduce_of_result_finish ht
  exact isWhole_of_result_reduce hreduce

/-! ### One tree after the other -/

lemma result_finishList_of_ok (h : ts.map (fun t => (finish d t).result) = us.map .ok) :
    (finishList d ts).result = .ok us := by
  induction ts generalizing us with
  | nil =>
    obtain rfl := List.map_eq_nil_iff.mp h.symm
    rfl
  | cons t ts ih =>
    obtain ⟨u, us, rfl, hu, hus⟩ := List.map_eq_cons_iff.mp h.symm
    exact result_finishList_cons hu.symm (ih hus.symm)

/-- The first failure in a list is the failure of the list. -/
lemma result_finishList_of_error {rest : List (Except Failure Tree)}
    (h : ts.map (fun t => (finish d t).result) = us.map .ok ++ .error e :: rest) :
    (finishList d ts).result = .error e := by
  induction ts generalizing us with
  | nil => simp at h
  | cons t ts ih =>
    cases us with
    | nil =>
      obtain ⟨ht : (finish d t).result = .error e, -⟩ := List.cons.inj h
      rw [finishList, result_bind, ht, error_bind]
    | cons u us =>
      obtain ⟨ht, hts⟩ := List.cons.inj h
      rw [finishList, result_bind_of_ok ht, result_bind, ih hts, error_bind]

/-- A group alone in a list is finished after its arguments and then stands for itself. -/
lemma result_finish_group (ts : List Tree) :
    (finish d (.call p listName [.call p name ts])).result = (finishList d ts).result >>=
      fun us => (finishCall d p name us).result >>= fun t => (reduce d p [t]).result := by
  rw [finish, finishList, finishList, finish]
  simp only [result_bind, result_finishCall_listName, bind_assoc]
  rfl

/-! ### Groups around arguments -/

lemma result_finishCall_bracketName (p : Location) (ts : List Tree) :
    (finishCall d p bracketName ts).result = (soleContent p "[]" ts).result.map (.bracket p) := by
  unfold finishCall
  rw [if_neg (by decide), if_neg (by decide), if_pos rfl, result_bind_of_ok (result_step .group),
    result_bind]
  cases (soleContent p "[]" ts).result <;> rfl

lemma result_finishCall_braceName (p : Location) (ts : List Tree) :
    (finishCall d p braceName ts).result =
      (soleContent p "\x7b\x7d" ts).result.map (.brace p) := by
  unfold finishCall
  rw [if_neg (by decide), if_neg (by decide), if_neg (by decide), if_pos rfl,
    result_bind_of_ok (result_step .group), result_bind]
  cases (soleContent p "\x7b\x7d" ts).result <;> rfl

lemma soleContent_of_two_le (h : 2 ≤ ts.length) (p : Location) (group : String) :
    soleContent p group ts = complain (.crowdedGroup group ts.length) p := by
  match ts with
  | [] => simp at h
  | [t] => simp at h
  | t :: u :: ts => rfl

variable {tss : List (List Token)} {rs rest : List (Except Failure Tree)}

lemma exists_regions (h : List.Forall₂ (CompilesTo d) tss rs) : ∃ regions,
    List.Forall₂ (FormsRegion d.registry) tss regions ∧
      regions.map (fun t => (finish d t).result) = rs := by
  induction h with
  | nil => exact ⟨[], .nil, rfl⟩
  | cons h _ ih =>
    obtain ⟨region, hregion, rfl⟩ := h
    obtain ⟨regions, hregions, rfl⟩ := ih
    exact ⟨region :: regions, .cons hregion hregions, rfl⟩

/-- A group becomes what its name says of the finished trees of its arguments. -/
lemma compilesTo_of_ok (hgroup : Encloses body grouped p name) (hbody : Separated tss body)
    (h : List.Forall₂ (CompilesTo d) tss (ts.map .ok)) :
    CompilesTo d grouped (finishCall d p name ts).result := by
  obtain ⟨regions, hregions, hfinish⟩ := exists_regions h
  refine ⟨_, formsRegion_enclosed hgroup hbody hregions, ?_⟩
  rw [result_finish_group, result_finishList_of_ok hfinish, ok_bind]
  cases hcall : (finishCall d p name ts).result with
  | error e => rfl
  | ok t =>
    -- the group is alone in its list, where it stands for itself only as a whole tree
    rw [List.forall₂_map_right_iff] at h
    have hwhole : ∀ u ∈ ts, u.IsWhole :=
      forall_of_forall₂ (h.imp fun tokens u hu => CompilesTo.isWhole hu)
    exact result_reduce_singleton (isWhole_of_result_finishCall hcall hwhole) d p

lemma compilesTo_of_error (hgroup : Encloses body grouped p name) (hbody : Separated tss body)
    (h : List.Forall₂ (CompilesTo d) tss (ts.map .ok ++ .error e :: rest)) :
    CompilesTo d grouped (.error e) := by
  obtain ⟨regions, hregions, hfinish⟩ := exists_regions h
  refine ⟨_, formsRegion_enclosed hgroup hbody hregions, ?_⟩
  rw [result_finish_group, result_finishList_of_error hfinish, error_bind]

/-- A token alone becomes the tree that it stands for, if the tree stands for itself. -/
lemma compilesTo_atom {t : Token} {u : Tree} (ht : isAtom t.kind = true)
    (hu : atom d.registry [] t = u) (hfinish : finish d u = pure u) (hwhole : u.IsWhole) :
    CompilesTo d [t] (.ok u) := by
  have hlist : (finishList d [u]).result = .ok [u] := by
    rw [finishList, hfinish]
    rfl
  refine ⟨.call u.place listName [u], hu ▸ formsRegion_atom ht, ?_⟩
  rw [finish, result_bind_of_ok hlist, result_finishCall_listName]
  exact result_reduce_singleton hwhole d u.place

/-- A function name with nothing between its parentheses is a call without arguments. -/
lemma compilesTo_bare {f o c : Token} (hf : f.kind = .word) (ho : o.kind = .leftParen)
    (hc : c.kind = .rightParen) (hname : f.name ∉ structuralNames) :
    CompilesTo d [f, o, c] (.ok (.call f.place f.name [])) := by
  refine ⟨_, formsRegion_bare hf ho hc, ?_⟩
  have hlist : (finishList d []).result = .ok [] := rfl
  rw [result_finish_group, hlist, ok_bind, finishCall_eq_pure hname]
  exact result_reduce_singleton (t := .call f.place f.name []) trivial d f.place

/-- The outcome with every place moved. -/
def relocateOutcome (φ : Location → Location) (r : Except Failure Tree) : Except Failure Tree :=
  (r.map (relocate φ)).mapError (Failure.relocate φ)

lemma CompilesTo.relocate (h : CompilesTo d tokens r) (φ : Location → Location) :
    CompilesTo d (tokens.map (Token.relocate φ)) (relocateOutcome φ r) := by
  obtain ⟨region, hregion, rfl⟩ := h
  refine ⟨_, hregion.relocate φ, ?_⟩
  rw [finish_relocate]
  rfl

/-- An argument of a group: tokens, what they become by themselves, and how they are moved to where
they stand in the group. -/
structure Argument where
  tokens : List Token
  outcome : Except Failure Tree
  move : Location → Location

/-- The tokens where they stand in the group. -/
def Argument.movedTokens (a : Argument) : List Token := a.tokens.map (Token.relocate a.move)

/-- What the tokens become, with the places where they stand in the group. -/
def Argument.movedOutcome (a : Argument) : Except Failure Tree := relocateOutcome a.move a.outcome

lemma forall₂_moved {arguments : List Argument}
    (h : ∀ a ∈ arguments, CompilesTo d a.tokens a.outcome) :
    List.Forall₂ (CompilesTo d) (arguments.map Argument.movedTokens)
      (arguments.map Argument.movedOutcome) := by
  rw [List.forall₂_map_left_iff, List.forall₂_map_right_iff, List.forall₂_same]
  exact fun a ha => (h a ha).relocate a.move

/-- A call takes the finished trees of its arguments, parentheses give way to the one they hold,
brackets and braces keep the one they hold and complain about several. If the arguments do not all
have a tree, every group around them fails as the first of them does. -/
theorem compilesTo_enclosed {arguments : List Argument}
    (harguments : ∀ a ∈ arguments, CompilesTo d a.tokens a.outcome)
    (hbody : Separated (arguments.map Argument.movedTokens) body) :
    (∀ ts : List Tree, arguments.map Argument.movedOutcome = ts.map .ok →
      (∀ f o c : Token, f.kind = .word → f.name ∉ structuralNames → o.kind = .leftParen →
        c.kind = .rightParen →
        CompilesTo d (f :: o :: (body ++ [c])) (.ok (.call f.place f.name ts))) ∧
      (∀ t, ts = [t] → ∀ o c : Token,
        (o.kind = .leftParen → c.kind = .rightParen → CompilesTo d (o :: (body ++ [c])) (.ok t)) ∧
        (o.kind = .leftBracket → c.kind = .rightBracket →
          CompilesTo d (o :: (body ++ [c])) (.ok (.bracket o.place t))) ∧
        (o.kind = .leftBrace → c.kind = .rightBrace →
          CompilesTo d (o :: (body ++ [c])) (.ok (.brace o.place t)))) ∧
      (2 ≤ ts.length → ∀ o c : Token,
        (o.kind = .leftBracket → c.kind = .rightBracket → CompilesTo d (o :: (body ++ [c]))
          (Failure.complain (.crowdedGroup "[]" arguments.length) o.place)) ∧
        (o.kind = .leftBrace → c.kind = .rightBrace → CompilesTo d (o :: (body ++ [c]))
          (Failure.complain (.crowdedGroup "\x7b\x7d" arguments.length) o.place)))) ∧
    ∀ (ts : List Tree) e rest,
      arguments.map Argument.movedOutcome = ts.map .ok ++ .error e :: rest →
      ∀ grouped place name, Encloses body grouped place name → CompilesTo d grouped (.error e) := by
  have hmoved := forall₂_moved harguments
  refine ⟨fun ts hts => ?_, fun ts e rest hts grouped place name hgroup => ?_⟩
  · rw [hts] at hmoved
    have hlength : ts.length = arguments.length := by simpa using (congrArg List.length hts).symm
    refine ⟨?_, ?_, ?_⟩
    · intro f o c hf hname ho hc
      have hcall := compilesTo_of_ok (.call hf ho hc) hbody hmoved
      rwa [finishCall_eq_pure hname] at hcall
    · rintro t rfl o c
      refine ⟨fun ho hc => ?_, fun ho hc => ?_, fun ho hc => ?_⟩
      · have hparen := compilesTo_of_ok (.parens ho hc) hbody hmoved
        rwa [result_finishCall_parenName] at hparen
      · have hbracket := compilesTo_of_ok (.brackets ho hc) hbody hmoved
        rwa [result_finishCall_bracketName] at hbracket
      · have hbrace := compilesTo_of_ok (.braces ho hc) hbody hmoved
        rwa [result_finishCall_braceName] at hbrace
    · intro htwo o c
      rw [← hlength]
      refine ⟨fun ho hc => ?_, fun ho hc => ?_⟩
      · have hbracket := compilesTo_of_ok (.brackets ho hc) hbody hmoved
        rwa [result_finishCall_bracketName, soleContent_of_two_le htwo] at hbracket
      · have hbrace := compilesTo_of_ok (.braces ho hc) hbody hmoved
        rwa [result_finishCall_braceName, soleContent_of_two_le htwo] at hbrace
  · rw [hts] at hmoved
    exact compilesTo_of_error hgroup hbody hmoved

/-- The arguments of `f(@a, 1 + 2)` are too many for brackets, and `f(@a, *)` fails at the star. -/
theorem compilesTo_two_arguments :
    let place (column : Int) : Location := ⟨"f.ms", 1, column⟩
    let token (kind : TokenKind) (text : String) (column : Int) : Token :=
      ⟨kind, .text text, place column⟩
    let number (n column : Int) : Token := ⟨.number, .int n, place column⟩
    let shift (columns : Int) (p : Location) : Location := ⟨p.file, p.line, p.column + columns⟩
    let d : Dialect := ⟨.builtin, .string⟩
    let a : Argument := ⟨[token .variable "a" 1], .ok (.variable (place 1) "a"), shift 2⟩
    let sum : Argument := ⟨[number 1 1, token .symbol "+" 3, number 2 5],
      .ok (.call (place 1) "add" [.literal (place 1) (.int 1), .literal (place 5) (.int 2)]),
      shift 5⟩
    let star : Argument := ⟨[token .symbol "*" 1],
      Failure.complain (.misplacedSymbol "*") (place 1), shift 5⟩
    let body := [token .variable "a" 3, token .comma "," 4, number 1 6, token .symbol "+" 8,
      number 2 10]
    let body' := [token .variable "a" 3, token .comma "," 4, token .symbol "*" 6]
    (∀ x ∈ [a, sum, star], CompilesTo d x.tokens x.outcome) ∧
    Separated ([a, sum].map Argument.movedTokens) body ∧
    Separated ([a, star].map Argument.movedTokens) body' ∧
    CompilesTo d ([token .word "f" 1, token .leftParen "(" 2] ++ body ++ [token .rightParen ")" 11])
      (.ok (.call (place 1) "f" [.variable (place 3) "a", .call (place 6) "add"
        [.literal (place 6) (.int 1), .literal (place 10) (.int 2)]])) ∧
    CompilesTo d ([token .leftBracket "[" 2] ++ body ++ [token .rightBracket "]" 11])
      (Failure.complain (.crowdedGroup "[]" 2) (place 2)) ∧
    CompilesTo d ([token .word "f" 1, token .leftParen "(" 2] ++ body' ++ [token .rightParen ")" 7])
      (Failure.complain (.misplacedSymbol "*") (place 6)) := by
  intro place token number shift d a sum star body body'
  have hforms : ∀ {ts : List Token} {region : Tree} {r : Except Failure Tree},
      (∀ t ∈ ts, t.kind ≠ .eof ∧ t.kind ≠ .newline) →
      (Source.mk [] .builtin).regions (ts ++ [token .eof "" 1]) = .ok [region] →
      (finish d region).result = r → CompilesTo d ts r := by
    intro ts region r hts hregions hr
    have hlines : LinesInside 0 ts := linesInside_of_ne_newline (fun t ht => (hts t ht).2) 0
    exact ⟨region, .of_regions (s := ⟨[], .builtin⟩) (fun t ht => (hts t ht).1) hlines rfl hregions,
      hr⟩
  have ha : CompilesTo d a.tokens a.outcome := hforms (by decide) rfl rfl
  have hsum : CompilesTo d sum.tokens sum.outcome := hforms (by decide) rfl rfl
  have hstar : CompilesTo d star.tokens star.outcome := hforms (by decide) rfl rfl
  have hbody : Separated ([a, sum].map Argument.movedTokens) body := .cons rfl (.single _)
  have hbody' : Separated ([a, star].map Argument.movedTokens) body' := .cons rfl (.single _)
  have hall : ∀ x ∈ [a, sum, star], CompilesTo d x.tokens x.outcome := by simp [ha, hsum, hstar]
  have htwo : ∀ x ∈ [a, sum], CompilesTo d x.tokens x.outcome := by simp [ha, hsum]
  have htwo' : ∀ x ∈ [a, star], CompilesTo d x.tokens x.outcome := by simp [ha, hstar]
  obtain ⟨hcall, -, hcrowd⟩ := (compilesTo_enclosed htwo hbody).1 [_, _] rfl
  refine ⟨hall, hbody, hbody', hcall _ _ _ rfl (by decide) rfl rfl, (hcrowd le_rfl _ _).1 rfl rfl,
    ?_⟩
  exact (compilesTo_enclosed htwo' hbody').2 [_] _ [] rfl _ _ _ (.call rfl rfl rfl)

end Tree

end LineScript
