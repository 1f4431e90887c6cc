import LineScript.Proofs.Finishing.Cases
import LineScript.Proofs.Reduction.Rewriting
import LineScript.Proofs.Token.Reading
import LineScript.Registry.Builtin

/-!
# Finishing keeps all leaves

The constants and variables of a region are those of its finished tree, in the same order. Only a
compound assignment has some of them twice, as its target is an operand of its operation too.
`Uncopied` reads the leaves of trees without the copied targets.
-/

namespace LineScript

namespace Tree

variable {d : Dialect} {p : Location} {name : String} {t u : Tree} {ts us ls ms : List Tree}

/-! ### The first tree at every place -/

/-- The trees of a list without those at a place where another one comes before. -/
def firstAtPlaces (ts : List Tree) : List Tree :=
  ts.eraseDupsBy fun t u => t.place = u.place

lemma eraseDupsBy_filter (ts : List Tree) (keeps : Location → Bool) :
    (ts.filter (keeps ·.place)).eraseDupsBy (fun t u => t.place = u.place) =
      (ts.eraseDupsBy fun t u => t.place = u.place).filter (keeps ·.place) := by
  induction hn : ts.length using Nat.strong_induction_on generalizing ts with
  | _ n ih =>
    cases ts with
    | nil => rfl
    | cons t ts =>
      have hlt : (ts.filter fun u => decide (u.place ≠ t.place)).length < n := by
        have hle := List.length_filter_le (fun u : Tree => decide (u.place ≠ t.place)) ts
        rw [← hn, List.length_cons]
        omega
      have htail := ih _ hlt _ rfl
      have hdiffer : (fun u : Tree => decide (decide (u.place = t.place) = false)) =
          fun u => decide (u.place ≠ t.place) := by
        funext u
        simp
      rw [List.eraseDupsBy_cons, hdiffer, List.filter_cons, List.filter_cons, ← htail,
        List.filter_filter]
      split_ifs with ht
      · rw [List.eraseDupsBy_cons, hdiffer, List.filter_filter]
        simp only [Bool.and_comm]
      · -- What is dropped with `t` stands at its place.
        congr 1
        refine List.filter_congr fun u _ => ?_
        by_cases hplace : u.place = t.place
        · simp [hplace, ht]
        · simp [hplace]

@[simp] lemma firstAtPlaces_nil : firstAtPlaces [] = [] := rfl

lemma firstAtPlaces_cons (t : Tree) (ts : List Tree) : firstAtPlaces (t :: ts) =
    t :: (firstAtPlaces ts).filter fun u => u.place ≠ t.place := by
  have hfilter := eraseDupsBy_filter ts fun place => decide (place ≠ t.place)
  rw [firstAtPlaces, List.eraseDupsBy_cons]
  simpa [firstAtPlaces] using hfilter

lemma mem_places_firstAtPlaces {q : Location} :
    q ∈ (firstAtPlaces ts).map place ↔ q ∈ ts.map place := by
  induction ts with
  | nil => rfl
  | cons t ts ih =>
    rw [firstAtPlaces_cons, List.map_cons, List.map_cons, List.mem_cons, List.mem_cons]
    refine or_congr_right' fun hq => ?_
    rw [← ih]
    simp only [List.mem_map, List.mem_filter, decide_eq_true_eq]
    constructor
    · rintro ⟨u, ⟨hu, -⟩, rfl⟩
      exact ⟨u, hu, rfl⟩
    · rintro ⟨u, hu, rfl⟩
      exact ⟨u, ⟨hu, hq⟩, rfl⟩

lemma firstAtPlaces_append (ts us : List Tree) : firstAtPlaces (ts ++ us) =
    firstAtPlaces ts ++ (firstAtPlaces us).filter fun u => u.place ∉ ts.map place := by
  induction ts with
  | nil => simp
  | cons t ts ih =>
    rw [List.cons_append, firstAtPlaces_cons, ih, List.filter_append, List.filter_filter,
      firstAtPlaces_cons, List.cons_append]
    simp only [List.map_cons, List.mem_cons, not_or, Bool.decide_and]

/-- Lists can be exchanged where the same trees come first. -/
lemma firstAtPlaces_append_congr (hts : firstAtPlaces ts = firstAtPlaces us)
    (hls : firstAtPlaces ls = firstAtPlaces ms) :
    firstAtPlaces (ts ++ ls) = firstAtPlaces (us ++ ms) := by
  have hplaces : ∀ q, q ∈ ts.map place ↔ q ∈ us.map place := fun q => by
    rw [← mem_places_firstAtPlaces, hts, mem_places_firstAtPlaces]
  rw [firstAtPlaces_append, firstAtPlaces_append, hts, hls]
  simp only [hplaces]

/-- A repetition is never first. -/
lemma firstAtPlaces_append_self (ts us : List Tree) :
    firstAtPlaces (ts ++ (ts ++ us)) = firstAtPlaces (ts ++ us) := by
  have hself : (firstAtPlaces ts).filter (fun u => u.place ∉ ts.map place) = [] := by
    rw [List.filter_eq_nil_iff]
    intro u hu
    simpa using mem_places_firstAtPlaces.mp (List.mem_map_of_mem hu)
  rw [firstAtPlaces_append ts (ts ++ us), firstAtPlaces_append ts us, List.filter_append, hself,
    List.filter_filter]
  simp only [List.nil_append, Bool.and_self]

lemma firstAtPlaces_of_nodup (h : (ts.map place).Nodup) : firstAtPlaces ts = ts := by
  induction ts with
  | nil => rfl
  | cons t ts ih =>
    rw [List.map_cons, List.nodup_cons] at h
    rw [firstAtPlaces_cons, ih h.2, List.filter_eq_self.mpr]
    intro u hu
    have hne : u.place ≠ t.place := fun heq => h.1 (heq ▸ List.mem_map_of_mem hu)
    simpa using hne

/-! ### Leaves without copies -/

/-- The second list has the leaves of the first from left to right, where only one of the two
targets counts that a compound assignment has; `spelled` are the spellings in question. -/
inductive Uncopied (spelled : String → Prop) : List Tree → List Tree → Prop where
  | nil : Uncopied spelled [] []
  | leaf {t : Tree} {ts ls : List Tree} (ht : t.isLeaf = true) (h : Uncopied spelled ts ls) :
      Uncopied spelled (t :: ts) (t :: ls)
  | branch {t : Tree} {ts ks ls : List Tree} (ht : t.isLeaf = false)
      (hchildren : Uncopied spelled t.children ks) (h : Uncopied spelled ts ls) :
      Uncopied spelled (t :: ts) (ks ++ ls)
  | compound {s operation : String} {target value : Tree} {ts ks ls : List Tree} (hs : spelled s)
      (hcompound : Operator.compound? s = some operation)
      (hoperands : Uncopied spelled [target, value] ks) (h : Uncopied spelled ts ls) :
      Uncopied spelled (.call target.place Operator.assign
        [target, .call target.place operation [target, value]] :: ts) (ks ++ ls)

/-- The symbols of a list are among those with a certain spelling. -/
def SymbolsAmong (spelled : String → Prop) (ts : List Tree) : Prop :=
  ∀ p s f, .symbol p s f ∈ ts → spelled s

lemma SymbolsAmong.of_forall {spelled : String → Prop} (h : ∀ t ∈ ts, SymbolsAmong spelled [t]) :
    SymbolsAmong spelled ts :=
  fun p s f hmem => h _ hmem p s f (List.mem_singleton_self _)

namespace Uncopied

variable {spelled : String → Prop}

lemma append (hts : Uncopied spelled ts ls) (hus : Uncopied spelled us ms) :
    Uncopied spelled (ts ++ us) (ls ++ ms) := by
  induction hts with
  | nil => exact hus
  | leaf ht _ ih => exact .leaf ht ih
  | branch ht hchildren _ _ ih =>
    rw [List.append_assoc]
    exact .branch ht hchildren ih
  | compound hs hcompound hoperands _ _ ih =>
    rw [List.append_assoc]
    exact .compound hs hcompound hoperands ih

/-- The leaves of some trees come before those of the trees behind them. -/
lemma exists_append (ts : List Tree) (h : Uncopied spelled (ts ++ us) ls) :
    ∃ ks ms, ls = ks ++ ms ∧ Uncopied spelled ts ks ∧ Uncopied spelled us ms := by
  induction ts generalizing ls with
  | nil => exact ⟨[], ls, rfl, .nil, h⟩
  | cons t ts ih =>
    cases h with
    | leaf ht h =>
      obtain ⟨ks, ms, rfl, hts, hus⟩ := ih h
      exact ⟨t :: ks, ms, rfl, .leaf ht hts, hus⟩
    | branch ht hchildren h =>
      obtain ⟨ks, ms, rfl, hts, hus⟩ := ih h
      exact ⟨_, ms, (List.append_assoc _ _ _).symm, .branch ht hchildren hts, hus⟩
    | compound hs hcompound hoperands h =>
      obtain ⟨ks, ms, rfl, hts, hus⟩ := ih h
      exact ⟨_, ms, (List.append_assoc _ _ _).symm, .compound hs hcompound hoperands hts, hus⟩

lemma eq_nil (h : Uncopied spelled [] ls) : ls = [] := by
  cases h
  rfl

/-- A tree that is no leaf has the leaves of its children. -/
lemma of_children (ht : t.isLeaf = false) (h : Uncopied spelled t.children ls) :
    Uncopied spelled [t] ls := by
  simpa using branch ht h nil

lemma eq_nil_of_children_eq_nil (ht : t.isLeaf = false) (hchildren : t.children = [])
    (h : Uncopied spelled [t] ls) : ls = [] := by
  cases h with
  | leaf hleaf =>
    rw [ht] at hleaf
    cases hleaf
  | branch _ hks h =>
    rw [hchildren] at hks
    rw [hks.eq_nil, h.eq_nil, List.append_nil]
  | compound => cases hchildren

/-- A symbol between two operands has no leaves. -/
lemma of_symbol_between {a b : Tree} {p : Location} {s : String} {f : Fixity}
    (h : Uncopied spelled [a, .symbol p s f, b] ls) : Uncopied spelled [a, b] ls := by
  obtain ⟨ks, ms, rfl, ha, h⟩ := exists_append [a] h
  obtain ⟨ns, ms, rfl, hsymbol, hb⟩ := exists_append [.symbol p s f] h
  rw [hsymbol.eq_nil_of_children_eq_nil rfl rfl, List.nil_append]
  exact ha.append hb

/-- Trees have the leaves that each of them has. -/
lemma of_forall₂ {es : List Tree}
    (h : List.Forall₂ (fun e u => Uncopied spelled [u] e.leaves) es us) :
    Uncopied spelled us (leavesList es) := by
  induction h with
  | nil => exact .nil
  | cons hu _ ih => exact hu.append ih

/-! ### Reduction -/

/-- A collapse keeps the leaves, as the symbol has none. -/
lemma collapse {redex : List Tree} (hcollapse : Reduction.Collapses redex t)
    (hspelled : SymbolsAmong spelled redex) (h : Uncopied spelled redex ls) :
    Uncopied spelled [t] ls := by
  cases hcollapse with
  | @step a p s f hs ha =>
    obtain ⟨ks, ms, rfl, hoperand, hsymbol⟩ := exists_append [a] h
    rw [hsymbol.eq_nil_of_children_eq_nil rfl rfl, List.append_nil]
    exact .of_children rfl hoperand
  | @sign a p s f hs ha =>
    obtain ⟨ks, ms, rfl, hsymbol, hoperand⟩ := exists_append [.symbol p s f] h
    rw [hsymbol.eq_nil_of_children_eq_nil rfl rfl, List.nil_append]
    exact .of_children rfl hoperand
  | @binary tier a b p s f hs ha hb =>
    exact .of_children rfl (h.of_symbol_between)
  | @assign a b p s f hs ha hb =>
    have hoperands := h.of_symbol_between
    cases hcompound : Operator.compound? s with
    | none =>
      refine .of_children rfl ?_
      simpa [Reduction.assignment, hcompound, children] using hoperands
    | some operation =>
      -- the tree has the target twice, but its leaves count once
      have hassign := compound (hspelled p s f (by simp)) hcompound hoperands nil
      rw [Reduction.assignment, hcompound]
      rwa [List.append_nil] at hassign

lemma rewrites (hrewrites : Reduction.Rewrites ts us) (hspelled : SymbolsAmong spelled ts)
    (h : Uncopied spelled ts ls) : Uncopied spelled us ls := by
  refine (hrewrites.preserves (motive := fun ts => SymbolsAmong spelled ts ∧ Uncopied spelled ts ls)
    ⟨hspelled, h⟩ ?_).2
  rintro l r redex t hcollapse ⟨hspelled, h⟩
  obtain ⟨ks, _, rfl, hl, h⟩ := exists_append l h
  obtain ⟨ns, ms, rfl, hredex, hr⟩ := exists_append redex h
  have hamong : SymbolsAmong spelled redex := fun p s f hmem => hspelled p s f (by simp [hmem])
  have ht : Uncopied spelled [t] ns := hredex.collapse hcollapse hamong
  refine ⟨fun p s f hmem => ?_, hl.append (ht.append hr)⟩
  rcases List.mem_append.mp hmem with hmem | hmem
  · exact hspelled p s f (List.mem_append_left _ hmem)
  · rcases List.mem_cons.mp hmem with rfl | hmem
    · cases hcollapse
    · exact hspelled p s f (by simp [hmem])

lemma bareArgument (h : Uncopied spelled ts ls) :
    Uncopied spelled [Reduction.bareArgument ts] ls := by
  unfold Reduction.bareArgument
  split
  · exact h
  · exact .of_children (by cases ts <;> rfl) h

lemma settled {place : Location} (hsettled : Reduction.Settled d place ts t)
    (h : Uncopied spelled ts ls) : Uncopied spelled [t] ls := by
  induction hsettled generalizing ls with
  | @entry place p name ts v _ ih =>
    obtain ⟨ks, ms, rfl, hlabel, hts⟩ := exists_append [.label p name] h
    exact .of_children rfl (hlabel.append (ih hts))
  | single => exact h
  | @call place p name ts descriptor hts hlookup =>
    obtain ⟨ks, ms, rfl, hname, harguments⟩ := exists_append [.identifier p name] h
    rw [hname.eq_nil_of_children_eq_nil rfl rfl, List.nil_append]
    exact .of_children rfl harguments.bareArgument
  | @join place p ts =>
    exact .of_children (by cases d.mode <;> rfl) h

/-- The tree of a list has the leaves of the list. -/
lemma reduce (hreduce : (Reduction.reduce d p ts).result = .ok t)
    (hspelled : SymbolsAmong spelled ts) (h : Uncopied spelled ts ls) :
    t.isSymbol = false ∧ Uncopied spelled [t] ls := by
  obtain ⟨-, us, hrewrites, hsymbols, hsettled⟩ := Reduction.exists_rewrites hreduce
  refine ⟨?_, (h.rewrites hrewrites hspelled).settled hsettled⟩
  cases hsettled with
  | single => exact hsymbols t List.mem_cons_self
  | entry | call | join => rfl

/-! ### Finishing -/

lemma soleContent (hcontent : SoleContent p ts t) (h : Uncopied spelled ts ls) :
    Uncopied spelled [t] ls := by
  cases hcontent with
  | void => exact .of_children rfl h
  | tree => exact h

lemma finishedCall (hcall : FinishedCall d p name ts t) (hspelled : ∀ u ∈ ts, u.isSymbol = false)
    (h : Uncopied spelled ts ls) : t.isSymbol = false ∧ Uncopied spelled [t] ls := by
  have hamong : SymbolsAmong spelled ts := fun p s f hmem => nomatch hspelled _ hmem
  cases hcall with
  | list hreduce => exact h.reduce hreduce hamong
  | paren hcontent =>
    refine ⟨?_, h.soleContent hcontent⟩
    cases hcontent with
    | void => rfl
    | tree => exact hspelled t List.mem_cons_self
  | parenList hreduce => exact h.reduce hreduce hamong
  | bracket hcontent => exact ⟨rfl, .of_children rfl (h.soleContent hcontent)⟩
  | brace hcontent => exact ⟨rfl, .of_children rfl (h.soleContent hcontent)⟩
  | call => exact ⟨rfl, .of_children rfl h⟩

/-! ### What the leaves are -/

lemma firstAtPlaces_eq (h : Uncopied spelled ts ls) :
    firstAtPlaces (leavesList ts) = firstAtPlaces ls := by
  induction h with
  | nil => rfl
  | @leaf t ts ls ht _ ih =>
    rw [leavesList_cons, leaves_eq, if_pos ht, List.cons_append, List.nil_append,
      firstAtPlaces_cons, ih, firstAtPlaces_cons]
  | @branch t ts ks ls ht _ _ ihchildren ih =>
    rw [leavesList_cons, leaves_eq, ht, if_neg (by simp)]
    exact firstAtPlaces_append_congr ihchildren ih
  | @compound s operation target value ts ks ls hs hcompound _ _ ihoperands ih =>
    rw [leavesList_cons, leaves_call]
    refine firstAtPlaces_append_congr ?_ ih
    rw [← ihoperands]
    simp only [leavesList_cons, leavesList_nil, leaves_call, List.append_nil]
    exact firstAtPlaces_append_self target.leaves value.leaves

/-- Without compound assignments nothing is copied. -/
lemma eq_leavesList (h : Uncopied spelled ts ls)
    (hspelled : ∀ s, spelled s → Operator.compound? s = none) : ls = leavesList ts := by
  induction h with
  | nil => rfl
  | leaf ht _ ih => rw [ih, leavesList_cons, leaves_eq, if_pos ht, List.singleton_append]
  | branch ht _ _ ihchildren ih =>
    rw [ihchildren, ih, leavesList_cons, leaves_eq, ht, if_neg (by simp)]
  | compound hs hcompound =>
    rw [hspelled _ hs] at hcompound
    cases hcompound

end Uncopied

/-! ### Scripts -/

/-- The spelling of a symbol among tokens. -/
def IsSpelled (source : List Token) (spelling : String) : Prop :=
  ∃ t ∈ source, t.kind = .symbol ∧ t.name = spelling

lemma uncopied_of_bears {registry : Registry} {source : List Token}
    (h : Grouping.Bears registry source t) :
    SymbolsAmong (IsSpelled source) [t] ∧ Uncopied (IsSpelled source) [t] t.leaves := by
  rcases h.cases with ⟨p, n, rfl⟩ | ⟨u, hu, hkind, f, rfl⟩ | ⟨p, n, -, rfl⟩ | ⟨p, v, rfl⟩ |
    ⟨p, n, rfl⟩
  · exact ⟨by simp [SymbolsAmong], .of_children rfl .nil⟩
  · refine ⟨fun p s f' hmem => ?_, .of_children rfl .nil⟩
    obtain ⟨-, rfl, -⟩ : p = u.place ∧ s = u.name ∧ f' = f := by simpa using hmem
    exact ⟨u, hu, hkind, rfl⟩
  · exact ⟨by simp [SymbolsAmong], .of_children rfl .nil⟩
  · exact ⟨by simp [SymbolsAmong], .leaf rfl .nil⟩
  · exact ⟨by simp [SymbolsAmong], .leaf rfl .nil⟩

/-- Finished elements and lists have the leaves that they had. -/
lemma carries_uncopied (registry : Registry) (d : Dialect) (source : List Token) :
    Carries d (Grouping.Bears registry source)
      (fun e u => SymbolsAmong (IsSpelled source) [u] ∧ Uncopied (IsSpelled source) [u] e.leaves)
      (fun l u => u.isSymbol = false ∧ Uncopied (IsSpelled source) [u] l.call.leaves) where
  atom t u ht hu := by
    obtain rfl := eq_of_finish_bears ht hu
    exact uncopied_of_bears ht
  list l us u hus hu := by
    have hleaves := Uncopied.of_forall₂ (hus.imp fun _ _ h => h.2)
    rw [Grouping.Siblings.call, leaves_call]
    exact hleaves.reduce hu (SymbolsAmong.of_forall (forall_of_forall₂ (hus.imp fun _ _ h => h.1)))
  group p name ls us u hus hu := by
    have hlists : List.Forall₂ (fun e u => Uncopied (IsSpelled source) [u] e.leaves)
        (ls.map Grouping.Siblings.call) us :=
      List.forall₂_map_left_iff.mpr (hus.imp fun _ _ h => h.2)
    obtain ⟨hsymbol, hleaves⟩ := (Uncopied.of_forall₂ hlists).finishedCall hu
      (forall_of_forall₂ (hus.imp fun _ _ h => h.1))
    rw [leaves_call]
    refine ⟨?_, hleaves⟩
    rintro p s f hmem
    obtain rfl := List.mem_singleton.mp hmem
    cases hsymbol

/-- Finishing drops, invents and reorders no leaf: where only the first of the leaves at one place
counts, the leaves of a finished tree are those of its region. The others stand in the second copy
that a compound assignment makes of its target, so that without one there are none. -/
theorem finish_keeps_leaves {s : Grouping.Source} {d : Dialect} {source file : String}
    {ts : List Token} {regions : List Tree} {region tree : Tree}
    (htokens : tokens source file = .ok ts) (hregions : s.regions ts = .ok regions)
    (hregion : region ∈ regions) (htree : (region.finish d).result = .ok tree) :
    firstAtPlaces tree.leaves = region.leaves ∧
    ((region.leaves.map place).Nodup ∧ Uncopied (IsSpelled ts) [tree] region.leaves) ∧
    ((∀ t ∈ ts, t.kind = .symbol → Operator.compound? t.name = none) →
      tree.leaves = region.leaves) := by
  obtain ⟨us, last, rfl, hlast, hus⟩ := (tokens_eq_ok_iff.mp htokens).exists_last
  obtain ⟨l, rfl, hl⟩ := Grouping.isRegion_of_mem_regions hlast hus hregions region hregion
  have hleaves : Uncopied (IsSpelled (us ++ [last])) [tree] l.call.leaves :=
    ((carries_uncopied s.registry d _).region hl htree).2
  have hnodup : (l.call.leaves.map place).Nodup := by
    have hsublist : l.call.leaves.Sublist (leavesList regions) := by
      rw [leavesList, List.flatMap_def]
      exact List.sublist_flatten_of_mem (List.mem_map_of_mem hregion)
    have hplaces := Grouping.places_leavesList_sublist hlast hus hregions
    exact ((hsublist.map place).trans hplaces).nodup (nodup_places htokens)
  refine ⟨?_, ⟨hnodup, hleaves⟩, fun hnone => ?_⟩
  · have hfirst := hleaves.firstAtPlaces_eq
    rwa [firstAtPlaces_of_nodup hnodup, leavesList_cons, leavesList_nil, List.append_nil] at hfirst
  · have hplain : ∀ spelling, IsSpelled (us ++ [last]) spelling →
        Operator.compound? spelling = none := by
      rintro _ ⟨t, ht, hkind, rfl⟩
      exact hnone t ht hkind
    have heq := hleaves.eq_leavesList hplain
    rw [heq, leavesList_cons, leavesList_nil, List.append_nil]

/-- In `(@a += 1) += @b` the target of one compound assignment is another. -/
theorem finish_nested_compound :
    let place (column : Int) : Location := ⟨"f.ms", 1, column⟩
    let text (kind : TokenKind) (s : String) (column : Int) : Token :=
      ⟨kind, .text s, place column⟩
    let ts := [text .leftParen "(" 1, text .variable "a" 2, text .symbol "+=" 5,
      ⟨.number, .int 1, place 8⟩, text .rightParen ")" 9, text .symbol "+=" 11,
      text .variable "b" 14, ⟨.eof, .null, place 16⟩]
    let a : Tree := .variable (place 2) "a"
    let one : Tree := .literal (place 8) (.int 1)
    let b : Tree := .variable (place 14) "b"
    let region : Tree := .call (place 1) listName
      [.call (place 1) parenName
        [.call (place 2) listName [a, .symbol (place 5) "+=" .between, one]],
        .symbol (place 11) "+=" .between, b]
    let target : Tree := .call (place 2) "assign" [a, .call (place 2) "add" [a, one]]
    let tree : Tree := .call (place 2) "assign" [target, .call (place 2) "add" [target, b]]
    tokens "(@a += 1) += @b" "f.ms" = .ok ts ∧
    (Grouping.Source.mk [] .builtin).regions ts = .ok [region] ∧
    (region.finish ⟨.builtin, .string⟩).result = .ok tree ∧
    tree.leaves = [a, a, one, a, a, one, b] ∧ region.leaves = [a, one, b] ∧
    firstAtPlaces tree.leaves = region.leaves ∧ Uncopied (IsSpelled ts) [tree] region.leaves := by
  intro place text ts a one b region target tree
  have htokens : tokens "(@a += 1) += @b" "f.ms" = .ok ts :=
    Traced.eq_ok_of_toOption (by decide +kernel)
  have hregions : (Grouping.Source.mk [] .builtin).regions ts = .ok [region] := rfl
  have htree : (region.finish ⟨.builtin, .string⟩).result = .ok tree := rfl
  obtain ⟨hfirst, ⟨-, huncopied⟩, -⟩ :=
    finish_keeps_leaves htokens hregions List.mem_cons_self htree
  exact ⟨htokens, hregions, htree, rfl, rfl, hfirst, huncopied⟩

end Tree

end LineScript
