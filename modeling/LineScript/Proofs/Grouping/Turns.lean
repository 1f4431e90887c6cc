import LineScript.Proofs.Grouping.RunFrom

/-!
# Grouping turn by turn

Every turn of the three loops of grouping moves on or leaves its loop, and none moves behind the
first token that ends the script. So the loops end, although they call each other: what is read
behind an element is nearer to the end. They come to what a run over marks comes to, and a script
that ends is grouped without a look behind its end (`regions_end_at_first_end`).
-/

namespace LineScript

namespace Grouping.InPlace

open Traced

variable {d : Script} {stop i j k : ℕ} {t u v : Token} {name : String} {closer : TokenKind}
  {siblings us : List Tree} {e : Failure}

/-! ### What the parts end with -/

/-- From the position on the siblings of a list end where the list does, and a run reads the same
ones. -/
def ElementsEnd (d : Script) (stop i : ℕ) : Prop :=
  ∀ inGroup siblings, Descent.Ends stop i (d.elements inGroup siblings)
    (fun us j => d.ListEndsAt inGroup j ∧ d.ReadsOn inGroup siblings i j us)
    (fun e => ∀ p, IsAt p inGroup siblings → d.runFrom p i = .error e)

/-- From the position on the argument lists of a group end behind its closing token, and a run reads
the same ones. -/
def ArgumentsEnd (d : Script) (stop i : ℕ) : Prop :=
  ∀ closer o, Descent.Ends stop i (d.arguments closer o)
    (fun lists j => d.ReadsLists closer o [] i j lists) (d.FailsBehind closer o [] i)

lemma ends_refuse {α : Type} {P : α → ℕ → Prop} {E : Failure → Prop} (hne : t.kind ≠ .eof)
    (h : ∀ e, (∀ α : Type, (d.source.unexpected t : Except Failure α) = .error e) → E e) :
    Descent.Ends stop i (d.refuse t) P E := by
  obtain ⟨e, he⟩ := exists_unexpected d.source t
  rw [Script.refuse, if_neg hne, he]
  exact .of_error (h e he)

/-! ### Elements -/

/-- A run fails at the position, whatever list has come to `siblings`. -/
def Script.FailsAt (d : Script) (siblings : List Tree) (i : ℕ) (e : Failure) : Prop :=
  ∀ p : Progress, p.siblings = siblings → d.runFrom p i = .error e

lemma ends_label (hstop : d.StopsAt stop) (hi : i ≤ stop) (ht : d.tokens[i]? = some t)
    (hcan : canLabel t.kind = true) (hu : d.tokens[i + 1]? = some u) (hcolon : u.kind = .colon) :
    Descent.Ends stop i
      (do
        d.advance
        d.advance
        return .label t.place (← ofResult (Source.plain t.value)))
      (fun u j => d.ReadsElement siblings i j u) (d.FailsAt siblings i) := by
  have hne : t.kind ≠ .eof := fun heof => by simp [heof, canLabel] at hcan
  refine .advance_bind hstop hi ht hne fun hi' => ?_
  refine .advance_bind hstop hi' hu (by simp [hcolon]) fun _ => ?_
  refine .ofResult_bind (fun text htext => .of_pure ⟨by omega, ?_, fun p _ => ?_⟩)
    fun e he p _ => ?_
  · intro v hv
    obtain rfl : t = v := Option.some.inj (ht.symm.trans hv)
    rfl
  · rw [runFrom_label ht hu hcan hcolon, htext, ok_bind]
  · rw [runFrom_label ht hu hcan hcolon, he, error_bind]

/-- A group is an element of its list. -/
lemma ends_group (harguments : ArgumentsEnd d stop k) (hlt : i < k) (ht : d.tokens[i]? = some t)
    (hcloser : isCloser closer = true)
    (hrun : ∀ p : Progress, d.runFrom p i = d.runFrom (p.openGroup t name closer) k) :
    Descent.Ends stop k (d.arguments closer t >>= fun lists => pure (.call t.place name lists))
      (fun u j => d.ReadsElement siblings i j u) (d.FailsAt siblings i) := by
  refine (harguments closer t).bind (fun e he p _ => ?_) fun lists j hle _ hlists => ?_
  · rw [hrun p]
    exact he hcloser p name
  · refine .of_pure ⟨Nat.lt_of_lt_of_le hlt hle, fun v hv => ?_, fun p _ => ?_⟩
    · obtain rfl : t = v := Option.some.inj (ht.symm.trans hv)
      rfl
    · rw [hrun p]
      exact hlists hcloser p name

lemma readsElement_atom (ht : d.tokens[i]? = some t) (hatom : isAtom t.kind = true)
    (hne : t.kind ≠ .eof) (hfree : IsFree t (d.tokens.drop (i + 1))) :
    d.ReadsElement siblings i (i + 1) (atom d.source.registry siblings t) := by
  refine ⟨Nat.lt_succ_self i, fun v hv => ?_, ?_⟩
  · obtain rfl : t = v := Option.some.inj (ht.symm.trans hv)
    exact place_atom _ _ t
  · rintro p rfl
    exact runFrom_of_place ht hne hfree (Source.place_of_isAtom hatom)

/-- Siblings are read up to a token that is no element; any other token is one by itself, opens a
group or is a colon. -/
lemma eq_colon (hline : t.kind ≠ .newline) (hlist : endsList t.kind = false)
    (hopens : opens? t.kind = none) (hatom : isAtom t.kind = false) : t.kind = .colon := by
  rcases kind_cases t.kind with h | h | h | h | h | ⟨closer, name, h⟩ | h
  · exact absurd h hline
  · simp [h, endsList] at hlist
  · exact h
  · simp [h, endsList] at hlist
  · simp [h, endsList] at hlist
  · simp [h] at hopens
  · simp [h] at hatom

lemma ends_element (hstop : d.StopsAt stop) (hi : i ≤ stop) (ht : d.tokens[i]? = some t)
    (hline : t.kind ≠ .newline) (hlist : endsList t.kind = false)
    (harguments : ∀ k, i < k → k ≤ stop → ArgumentsEnd d stop k) (siblings : List Tree) :
    Descent.Ends stop i (d.element siblings) (fun u j => d.ReadsElement siblings i j u)
      (d.FailsAt siblings i) := by
  have hne : t.kind ≠ .eof := fun heof => by simp [heof, endsList] at hlist
  rw [Script.element]
  refine .look_bind ht hi (.isLabel_bind hstop hi ht ?_ ?_)
  · intro hcan u hu hcolon
    rw [if_pos rfl]
    exact ends_label hstop hi ht hcan hu hcolon
  · intro hlabel
    have hfree : (∀ u, d.tokens[i + 1]? = some u → ¬(t.kind = .word ∧ u.kind = .leftParen)) →
        IsFree t (d.tokens.drop (i + 1)) := by
      intro hcall u hu
      rw [List.head?_drop] at hu
      exact ⟨hlabel u hu, hcall u hu⟩
    rw [if_neg Bool.false_ne_true]
    by_cases hword : t.kind = .word
    · -- a call, or a word by itself
      rw [if_pos hword]
      refine .advance_bind hstop hi ht hne fun hi' => ?_
      obtain ⟨u, hu⟩ := hstop.exists_token hi'
      refine .accept_bind hstop hi' hu (fun hparen j _ hj hmove => ?_) fun hparen => ?_
      · obtain rfl := hmove (by decide)
        rw [if_pos rfl]
        exact ends_group (harguments (i + 2) (by omega) hj) (by omega) ht rfl
          fun p => runFrom_call ht hu hword hparen
      · rw [if_neg Bool.false_ne_true]
        refine .of_pure (readsElement_atom ht (by rw [hword]; rfl) hne (hfree fun v hv h => ?_))
        obtain rfl : u = v := Option.some.inj (hu.symm.trans hv)
        exact hparen h.2
    · -- a group, an operand or a symbol
      have hfree := hfree fun u _ h => hword h.1
      rw [if_neg hword]
      refine .advance_bind hstop hi ht hne fun hi' => ?_
      cases hopens : opens? t.kind with
      | some group =>
        obtain ⟨closer, name⟩ := group
        exact ends_group (harguments (i + 1) (Nat.lt_succ_self i) hi') (Nat.lt_succ_self i) ht
          (isCloser_of_opens hopens)
          fun p => runFrom_of_place ht hne hfree (Source.place_of_opens hopens)
      | none =>
        cases hatom : isAtom t.kind with
        | true => exact .of_pure (readsElement_atom ht hatom hne hfree)
        | false =>
          have hcolon : t.kind = .colon := eq_colon hline hlist hopens hatom
          exact ends_refuse hne fun e he p _ => runFrom_colon ht hcolon he

/-! ### Siblings -/

/-- A turn of the loop over siblings passes a line feed or an element, or leaves the loop. -/
lemma ends_elementTurn (hstop : d.StopsAt stop) (hi : i ≤ stop)
    (harguments : ∀ k, i < k → k ≤ stop → ArgumentsEnd d stop k) (inGroup : Bool)
    (siblings : List Tree) :
    Descent.Ends stop i (d.elementTurn inGroup siblings)
      (fun next j =>
        match next with
        | .again us => ∃ ts, us = ts.reverse ++ siblings ∧ d.Passes inGroup siblings i j ts
        | .leave us => us = siblings ∧ j = i ∧ d.ListEndsAt inGroup i)
      (fun e => ∀ p, IsAt p inGroup siblings → d.runFrom p i = .error e) := by
  obtain ⟨t, ht⟩ := hstop.exists_token hi
  rw [Script.elementTurn]
  refine .look_bind ht hi ?_
  by_cases hline : t.kind = .newline
  · rw [if_pos hline]
    cases inGroup with
    | false => exact .of_pure ⟨rfl, rfl, t, ht, Or.inr ⟨rfl, hline⟩⟩
    | true =>
      refine .advance_bind hstop hi ht (by simp [hline]) fun _ => ?_
      exact .of_pure ⟨[], rfl, passes_newline ht hline⟩
  · rw [if_neg hline]
    cases hlist : endsList t.kind with
    | true => exact .of_pure ⟨rfl, rfl, t, ht, Or.inl hlist⟩
    | false =>
      refine (ends_element hstop hi ht hline hlist harguments siblings).bind
        (fun e he p hp => he p hp.siblings_eq) fun u j _ _ hu => ?_
      exact .of_pure ⟨[u], rfl, hu.passes⟩

/-- The siblings of a list end if the groups and the siblings behind the next element do. -/
lemma elementsEnd_of_argumentsEnd (hstop : d.StopsAt stop) (hi : i ≤ stop)
    (harguments : ∀ k, i < k → k ≤ stop → ArgumentsEnd d stop k)
    (helements : ∀ k, i < k → k ≤ stop → ElementsEnd d stop k) : ElementsEnd d stop i := by
  intro inGroup siblings
  rw [Script.elements]
  refine (ends_elementTurn hstop hi harguments inGroup siblings).bind (fun _ => id)
    fun next j _ hj hnext => ?_
  cases next with
  | leave us =>
    obtain ⟨rfl, rfl, hlist⟩ := hnext
    exact .of_pure ⟨hlist, Or.inl ⟨rfl, rfl⟩⟩
  | again us =>
    obtain ⟨ts, rfl, hpasses⟩ := hnext
    obtain ⟨t, ht⟩ := hstop.exists_token hi
    obtain ⟨u, hu⟩ := hstop.exists_token hj
    refine (helements j hpasses.lt hj inGroup (ts.reverse ++ siblings)).imp ?_ ?_
    · rintro us k _ _ ⟨hlist, hus⟩
      exact ⟨hlist, hpasses.readsOn hu hus⟩
    · intro e he p hp
      rw [hpasses.runFrom_eq t ht p hp]
      exact he _ (hp.put t.place ts)

/-! ### Argument lists -/

/-- A turn of the loop over argument lists passes a list with its comma, or leaves the loop. -/
lemma ends_argumentTurn (hstop : d.StopsAt stop) (hi : i ≤ stop) (ht : d.tokens[i]? = some t)
    (helements : ElementsEnd d stop i) (closer : TokenKind) (o : Token) (done : List Tree) :
    Descent.Ends stop i (d.argumentTurn closer o done)
      (fun next j =>
        match next with
        | .again lists => i < j ∧ lists ≠ [] ∧ d.PassesLists closer o done i j lists
        | .leave lists =>
          (done = [] → t.kind ≠ closer) → d.ReadsLists closer o done i j lists.reverse)
      (d.FailsBehind closer o done i) := by
  rw [Script.argumentTurn]
  refine .look_bind ht hi ((helements true []).bind ?_ ?_)
  · exact fun e he _ p name => he _ ⟨rfl, rfl⟩
  · rintro us j hle hj ⟨⟨v, hv, hlist⟩, hus⟩
    obtain ⟨start, hstart, hbegun, hrun⟩ := exists_start ht hv hus
    rw [← hstart]
    refine .accept_bind hstop hj hv (fun hcomma k _ _ hmove => ?_) fun hcomma => ?_
    · obtain rfl := hmove (by decide)
      rw [if_pos rfl]
      refine .of_pure ⟨Nat.lt_succ_of_le hle, List.cons_ne_nil _ _, fun _ p name => ?_⟩
      rw [hrun, runFrom_comma hv hcomma Progress.separate?_withinGroup]
    · rw [if_neg Bool.false_ne_true]
      refine .accept_bind hstop hj hv (fun hkind k _ _ hmove => ?_) fun hkind => ?_
      · rw [if_pos rfl]
        refine .of_pure fun hdone hcloser p name => ?_
        obtain rfl := hmove (ne_eof_of_isCloser hcloser)
        have hne : done = [] → start ≠ none := fun hnil hnone => hdone hnil (hbegun hnone ▸ hkind)
        rw [hrun, runFrom_closer hv (hkind ▸ hcloser) (Progress.close?_withinGroup hkind hne)]
      · rw [if_neg Bool.false_ne_true]
        refine .look_bind hv hj ?_
        by_cases heof : v.kind = .eof
        · rw [if_pos heof]
          refine .of_error fun _ p name => ?_
          rw [hrun, runFrom_end hv heof]
          rfl
        · rw [if_neg heof]
          have hcloser : isCloser v.kind = true := by simpa [endsList, hcomma, heof] using hlist
          refine ends_refuse heof fun e he _ p name => ?_
          rw [hrun]
          exact runFrom_of_not_closed hv hcloser (Progress.close?_withinGroup_of_ne hkind) he

/-- The argument lists of a group that is not closed where it was opened. -/
lemma ends_argumentLists (hstop : d.StopsAt stop) (hi : i ≤ stop)
    (helements : ∀ k, i ≤ k → k ≤ stop → ElementsEnd d stop k) (closer : TokenKind) (o : Token)
    (hopen : ∀ t, d.tokens[i]? = some t → t.kind ≠ closer) :
    Descent.Ends stop i (d.argumentLists closer o [])
      (fun lists j => d.ReadsLists closer o [] i j lists.reverse)
      (d.FailsBehind closer o [] i) := by
  have hloop : ∀ lists, d.argumentLists closer o lists =
      d.argumentTurn closer o lists >>= fun next =>
        match next with
        | .again lists => d.argumentLists closer o lists
        | .leave lists => pure lists :=
    Script.argumentLists.eq_1 d closer o
  refine .loop (I := fun k lists => (lists = [] → ∀ t, d.tokens[k]? = some t → t.kind ≠ closer) ∧
    d.PassesLists closer o [] i k lists) hloop ?_ hi ⟨fun _ => hopen, fun _ _ _ => rfl⟩
  rintro k hik hk lists ⟨hne, hpassed⟩
  obtain ⟨t, ht⟩ := hstop.exists_token hk
  refine (ends_argumentTurn hstop hk ht (helements k hik hk) closer o lists).imp ?_ ?_
  · intro next j _ _ hnext
    cases next with
    | again lists' =>
      obtain ⟨hlt, hlists, hpasses⟩ := hnext
      refine ⟨hlt, fun hnil => absurd hnil hlists, fun hcloser p name => ?_⟩
      rw [hpassed hcloser p name, hpasses hcloser p name]
    | leave lists' =>
      intro hcloser p name
      rw [hpassed hcloser p name]
      exact hnext (fun hnil => hne hnil t ht) hcloser p name
  · intro e he hcloser p name
    rw [hpassed hcloser p name]
    exact he hcloser p name

/-- The argument lists of a group end if siblings do, from the beginning of the lists on. -/
lemma argumentsEnd_of_elementsEnd (hstop : d.StopsAt stop) (hi : i ≤ stop)
    (helements : ∀ k, i ≤ k → k ≤ stop → ElementsEnd d stop k) : ArgumentsEnd d stop i := by
  intro closer o
  obtain ⟨t, ht⟩ := hstop.exists_token hi
  rw [Script.arguments]
  refine .accept_bind hstop hi ht (fun hkind j _ _ hmove => ?_) fun hkind => ?_
  · rw [if_pos rfl]
    refine .of_pure fun hcloser p name => ?_
    obtain rfl := hmove (ne_eof_of_isCloser hcloser)
    exact runFrom_closer ht (hkind ▸ hcloser) (Progress.close?_openGroup hkind)
  · rw [if_neg Bool.false_ne_true]
    refine (ends_argumentLists hstop hi helements closer o ?_).bind (fun _ => id)
      fun lists j _ _ h => .of_pure h
    intro u hu
    obtain rfl : t = u := Option.some.inj (ht.symm.trans hu)
    exact hkind

/-- Wherever they begin, the siblings of a list end, and with them the argument lists of a group
(`argumentsEnd`). -/
theorem elementsEnd (hstop : d.StopsAt stop) (hi : i ≤ stop) : ElementsEnd d stop i := by
  -- the induction is on the number of positions left, which every element and every group lower
  induction hleft : stop - i using Nat.strongRecOn generalizing i with
  | ind left ih =>
    have helements : ∀ k, i < k → k ≤ stop → ElementsEnd d stop k := fun k hik hk =>
      ih (stop - k) (by omega) hk rfl
    have harguments : ∀ k, i < k → k ≤ stop → ArgumentsEnd d stop k := fun k hik hk =>
      argumentsEnd_of_elementsEnd hstop hk fun l hkl => helements l (Nat.lt_of_lt_of_le hik hkl)
    exact elementsEnd_of_argumentsEnd hstop hi harguments helements

lemma argumentsEnd (hstop : d.StopsAt stop) (hi : i ≤ stop) : ArgumentsEnd d stop i :=
  argumentsEnd_of_elementsEnd hstop hi fun _ _ hk => elementsEnd hstop hk

/-! ### Regions -/

/-- The call of a list that has siblings. -/
def HasElements (t : Tree) : Prop :=
  ∃ p u us, t = .call p Tree.listName (u :: us)

/-- The siblings up to the end of a region become that region. The token at their beginning does not
end it, so that there are some. -/
lemma runFrom_region (ht : d.tokens[i]? = some t) (hbegin : ¬(t.kind = .newline ∨ t.kind = .eof))
    (hv : d.tokens[j]? = some v) (hend : v.kind = .newline ∨ v.kind = .eof)
    (hus : d.ReadsOn false [] i j us) (regions : List Tree) :
    let region : Tree := .call t.place Tree.listName us.reverse
    i < j ∧ d.runFrom ⟨regions, [], []⟩ i = d.runFrom ⟨region :: regions, [], []⟩ j ∧
      HasElements region := by
  obtain ⟨rfl, -⟩ | ⟨ts, rfl, hpasses⟩ := hus
  · obtain rfl : t = v := Option.some.inj (ht.symm.trans hv)
    exact absurd hend hbegin
  · obtain ⟨u, hu, hplace⟩ := hpasses.place_head rfl t ht
    obtain ⟨us, rfl⟩ : ∃ us, ts = u :: us := List.head?_eq_some_iff.mp hu
    rw [List.append_nil, List.reverse_reverse]
    refine ⟨hpasses.lt, ?_, t.place, u, us, rfl⟩
    rw [hpasses.runFrom_eq t ht _ ⟨rfl, rfl⟩, runFrom_endRegion hv hend rfl,
      Progress.endRegion_put, hplace]

/-- What cannot follow the siblings of a region is refused behind them. -/
lemma runFrom_region_refused (ht : d.tokens[i]? = some t) (hv : d.tokens[j]? = some v)
    (hlist : endsList v.kind = true) (hne : v.kind ≠ .eof) (hus : d.ReadsOn false [] i j us)
    (he : ∀ α : Type, (d.source.unexpected v : Except Failure α) = .error e)
    (regions : List Tree) : d.runFrom ⟨regions, [], []⟩ i = .error e := by
  obtain ⟨rfl, -⟩ | ⟨ts, -, hpasses⟩ := hus
  · exact runFrom_of_no_group hv hlist hne rfl he
  · rw [hpasses.runFrom_eq t ht _ ⟨rfl, rfl⟩]
    exact runFrom_of_no_group hv hlist hne rfl he

/-- A turn of the loop over regions passes a line feed or a region, or leaves the loop. -/
lemma ends_regionTurn (hstop : d.StopsAt stop) (hi : i ≤ stop) (regions : List Tree) :
    Descent.Ends stop i (d.regionTurn regions)
      (fun next j =>
        match next with
        | .again rs => i < j ∧ d.runFrom ⟨regions, [], []⟩ i = d.runFrom ⟨rs, [], []⟩ j ∧
            (rs = regions ∨ ∃ r, HasElements r ∧ rs = r :: regions)
        | .leave rs => rs = regions ∧ j = i ∧ i = stop)
      (fun e => d.runFrom ⟨regions, [], []⟩ i = .error e) := by
  obtain ⟨t, ht⟩ := hstop.exists_token hi
  rw [Script.regionTurn]
  refine .look_bind ht hi ?_
  by_cases heof : t.kind = .eof
  · rw [if_pos heof]
    exact .of_pure ⟨rfl, rfl, hstop.eq_of_eof hi ht heof⟩
  · rw [if_neg heof]
    refine .accept_bind hstop hi ht (fun hline j _ _ hmove => ?_) fun hline => ?_
    · obtain rfl := hmove (by decide)
      rw [if_pos rfl]
      exact .of_pure ⟨Nat.lt_succ_self i, runFrom_newline ht hline, Or.inl rfl⟩
    · rw [if_neg Bool.false_ne_true]
      refine .look_bind ht hi ((elementsEnd hstop hi false []).bind ?_ ?_)
      · exact fun e he => he _ ⟨rfl, rfl⟩
      · rintro us j _ hj ⟨⟨v, hv, hlist⟩, hus⟩
        refine .look_bind hv hj ?_
        by_cases hend : v.kind = .newline ∨ v.kind = .eof
        · rw [if_pos hend]
          obtain ⟨hlt, hrun, helements⟩ :=
            runFrom_region ht (not_or.mpr ⟨hline, heof⟩) hv hend hus regions
          exact .of_pure ⟨hlt, hrun, Or.inr ⟨_, helements, rfl⟩⟩
        · rw [if_neg hend]
          obtain ⟨hline', heof'⟩ := not_or.mp hend
          have hlist : endsList v.kind = true := by simpa [hline'] using hlist
          exact ends_refuse heof' fun e he =>
            runFrom_region_refused ht hv hlist heof' hus he regions

/-- From the first position on the regions of a script end at the first token that ends it. -/
lemma ends_regions (hstop : d.StopsAt stop) :
    Descent.Ends stop 0 d.regions
      (fun regions j => d.runFrom .start 0 = .ok regions ∧ j = stop ∧ ∀ r ∈ regions, HasElements r)
      (fun e => d.runFrom .start 0 = .error e) := by
  have hloop : ∀ regions, d.regionList regions = d.regionTurn regions >>= fun next =>
      match next with
      | .again regions => d.regionList regions
      | .leave regions => pure regions :=
    Script.regionList.eq_1 d
  have hlist : Descent.Ends stop 0 (d.regionList [])
      (fun regions j => d.runFrom .start 0 = .ok regions.reverse ∧ j = stop ∧
        ∀ r ∈ regions, HasElements r)
      (fun e => d.runFrom .start 0 = .error e) := by
    refine .loop (I := fun k regions => d.runFrom .start 0 = d.runFrom ⟨regions, [], []⟩ k ∧
      ∀ r ∈ regions, HasElements r) hloop ?_ (Nat.zero_le stop) ⟨rfl, by simp⟩
    rintro k - hk regions ⟨hrun, helements⟩
    rw [hrun]
    refine (ends_regionTurn hstop hk regions).imp ?_ fun _ => id
    intro next j _ _ hnext
    cases next with
    | again rs =>
      obtain ⟨hlt, hrs, hnew⟩ := hnext
      refine ⟨hlt, hrs, ?_⟩
      obtain rfl | ⟨r, hr, rfl⟩ := hnew
      · exact helements
      · exact List.forall_mem_cons.mpr ⟨hr, helements⟩
    | leave rs =>
      obtain ⟨rfl, rfl, rfl⟩ := hnext
      obtain ⟨t, ht, heof⟩ := hstop.exists_end
      exact ⟨runFrom_end ht heof, rfl, helements⟩
  refine hlist.bind (fun _ => id) fun regions j _ _ ⟨hrun, hj, helements⟩ => .of_pure ?_
  exact ⟨hrun, hj, fun r hr => helements r (List.mem_reverse.mp hr)⟩

/-! ### Scripts that end -/

/-- Unless it leaves the loop, a turn has come further than where it began. -/
def Turn.MovesOnFrom (i : ℕ) (next : Turn) (j : ℕ) : Prop :=
  ∀ ts, next = .again ts → i < j

/-- Where the first token is that ends a script. -/
def firstEnd (tokens : List Token) : ℕ := tokens.findIdx (·.kind = .eof)

variable {s : Source} {tokens : List Token} {last : Token}

lemma stopsAt_firstEnd (hlast : tokens.getLast? = some last) (heof : last.kind = .eof) :
    Script.StopsAt ⟨s, tokens⟩ (firstEnd tokens) := by
  have hlt : firstEnd tokens < tokens.length :=
    List.findIdx_lt_length.mpr ⟨last, List.mem_of_getLast? hlast, by simp [heof]⟩
  refine ⟨⟨tokens[firstEnd tokens], List.getElem?_eq_getElem hlt, ?_⟩, ?_⟩
  · exact of_decide_eq_true (List.findIdx_getElem (w := hlt))
  · intro i hi t ht
    obtain ⟨hlength, rfl⟩ := List.getElem?_eq_some_iff.mp ht
    exact of_decide_eq_false (List.not_of_lt_findIdx hi)

lemma runFrom_start (hlast : tokens.getLast? = some last) (heof : last.kind = .eof) :
    Script.runFrom ⟨s, tokens⟩ .start 0 = s.regions tokens := by
  rw [Script.runFrom, Source.regions, hlast]
  simp [heof]

/-- What stands behind the first end of a script does not matter. -/
lemma regions_take (hlast : tokens.getLast? = some last) (heof : last.kind = .eof) :
    s.regions (tokens.take (firstEnd tokens + 1)) = s.regions tokens := by
  obtain ⟨⟨t, ht, hend⟩, hfirst⟩ := stopsAt_firstEnd (s := s) hlast heof
  obtain ⟨hlt, rfl⟩ := List.getElem?_eq_some_iff.mp ht
  have hts : ∀ u ∈ tokens.take (firstEnd tokens), u.kind ≠ .eof := by
    intro u hu
    obtain ⟨i, hi, rfl⟩ := List.mem_take_iff_getElem.mp hu
    exact hfirst i (by omega) _ (List.getElem?_eq_getElem (by omega))
  have htokens : tokens.take (firstEnd tokens) ++
      tokens[firstEnd tokens] :: tokens.drop (firstEnd tokens + 1) = tokens := by
    rw [← List.drop_eq_getElem_cons, List.take_append_drop]
  calc s.regions (tokens.take (firstEnd tokens + 1))
      = s.regions (tokens.take (firstEnd tokens) ++ [tokens[firstEnd tokens]]) := by
        rw [List.take_succ_eq_append_getElem hlt]
    _ = (marks (tokens.take (firstEnd tokens))).foldlM s.placeMark .start >>= s.finish :=
        Source.regions_append_end hts hend
    _ = s.regions (tokens.take (firstEnd tokens) ++
          tokens[firstEnd tokens] :: tokens.drop (firstEnd tokens + 1)) :=
        (Source.regions_append_end_cons hts hend (by rw [htokens, hlast]) heof).symm
    _ = s.regions tokens := by rw [htokens]

/-- Grouping a script that ends is over, and it has come to the same regions or the same failure as
a run over marks. On its way every turn of its three loops moves on or leaves its loop, and neither
the position nor any look is behind the first token that ends the script, so that the tokens behind
that one do not matter. Where it succeeds it stands at that token, and no region is empty. -/
theorem regions_end_at_first_end (s : Source) {tokens : List Token} {last : Token}
    (hlast : tokens.getLast? = some last) (heof : last.kind = .eof) :
    let d : Script := ⟨s, tokens⟩
    let stop := firstEnd tokens
    (∀ i ≤ stop,
      (∀ regions, Descent.Ends stop i (d.regionTurn regions) (Turn.MovesOnFrom i) fun _ => True) ∧
      (∀ inGroup siblings, Descent.Ends stop i (d.elementTurn inGroup siblings)
        (Turn.MovesOnFrom i) fun _ => True) ∧
      (∀ closer opener done, Descent.Ends stop i (d.argumentTurn closer opener done)
        (Turn.MovesOnFrom i) fun _ => True)) ∧
    (∃ r : Reader, d.regions.run.run ⟨0, []⟩ = some (s.regions tokens, r) ∧ r.IsWithin stop ∧
      ∀ regions, s.regions tokens = .ok regions →
        r.position = stop ∧ ∀ region ∈ regions, HasElements region) ∧
    s.regions (tokens.take (stop + 1)) = s.regions tokens := by
  intro d stop
  have hstop : d.StopsAt stop := stopsAt_firstEnd hlast heof
  refine ⟨fun i hi => ⟨fun regions => ?_, fun inGroup siblings => ?_,
    fun closer opener done => ?_⟩, ?_, regions_take hlast heof⟩
  · refine (ends_regionTurn hstop hi regions).imp ?_ fun _ _ => trivial
    rintro next j - - hnext rs rfl
    exact hnext.1
  · refine (ends_elementTurn hstop hi (fun _ _ hk => argumentsEnd hstop hk) inGroup siblings).imp ?_
      fun _ _ => trivial
    rintro next j - - hnext us rfl
    obtain ⟨ts, -, hpasses⟩ := hnext
    exact hpasses.lt
  · obtain ⟨t, ht⟩ := hstop.exists_token hi
    refine (ends_argumentTurn hstop hi ht (elementsEnd hstop hi) closer opener done).imp ?_
      fun _ _ => trivial
    rintro next j - - hnext lists rfl
    exact hnext.1
  · obtain ⟨result, r, hrun, -, hr, hresult⟩ := ends_regions hstop ⟨0, []⟩ rfl ⟨by simp, by simp⟩
    rw [runFrom_start hlast heof] at hresult
    cases result with
    | error e =>
      refine ⟨r, hrun.trans (by rw [hresult]), hr, fun regions hregions => ?_⟩
      cases hresult.symm.trans hregions
    | ok regions =>
      obtain ⟨hregions, hposition, helements⟩ := hresult
      refine ⟨r, hrun.trans (by rw [hregions]), hr, fun rs hrs => ⟨hposition, ?_⟩⟩
      obtain rfl : regions = rs := Except.ok.inj (hregions.symm.trans hrs)
      exact helements

/-- The call `f ( , 1 )` with a line feed before its comma ends before a colon and a closing
parenthesis that are behind the end of the script. -/
theorem regions_end_before_stray_tokens :
    let place (line column : Int) : Location := ⟨"f.ms", line, column⟩
    let last : Token := ⟨.eof, .null, place 3 4⟩
    let tokens : List Token := [⟨.word, .text "f", place 1 1⟩, ⟨.leftParen, .text "(", place 1 2⟩,
      ⟨.newline, .null, place 1 3⟩, ⟨.comma, .text ",", place 2 1⟩, ⟨.number, .int 1, place 2 3⟩,
      ⟨.rightParen, .text ")", place 2 4⟩, ⟨.newline, .null, place 2 5⟩, ⟨.eof, .null, place 3 1⟩,
      ⟨.colon, .text ":", place 3 2⟩, ⟨.rightParen, .text ")", place 3 3⟩, last]
    let source : Source := ⟨[], .empty⟩
    let d : Script := ⟨source, tokens⟩
    let empty : Tree := .call (place 1 3) Tree.listName []
    let one : Tree := .call (place 2 3) Tree.listName [.literal (place 2 3) (.int 1)]
    let region : Tree := .call (place 1 1) Tree.listName [.call (place 1 1) "f" [empty, one]]
    tokens.getLast? = some last ∧ last.kind = .eof ∧ firstEnd tokens = 7 ∧
    source.regions tokens = .ok [region] ∧
    (∀ i ≤ 7, ∀ closer opener done, Descent.Ends 7 i (d.argumentTurn closer opener done)
      (Turn.MovesOnFrom i) fun _ => True) ∧
    (∃ r : Reader, d.regions.run.run ⟨0, []⟩ = some (.ok [region], r) ∧ r.position = 7 ∧
      ∀ k ∈ r.looks, k ≤ 7) ∧
    HasElements region ∧ source.regions (tokens.take 8) = .ok [region] := by
  intro place last tokens source d empty one region
  have hlast : tokens.getLast? = some last := rfl
  have hend : firstEnd tokens = 7 := by decide
  have hregions : source.regions tokens = .ok [region] := rfl
  obtain ⟨hturns, ⟨r, hrun, hwithin, hsuccess⟩, htake⟩ := regions_end_at_first_end source hlast rfl
  rw [hend] at hturns hwithin hsuccess htake
  rw [hregions] at hrun htake
  obtain ⟨hposition, helements⟩ := hsuccess [region] hregions
  exact ⟨hlast, rfl, hend, hregions, fun i hi => (hturns i hi).2.2,
    ⟨r, hrun, hposition, hwithin.2⟩, helements region (by simp), htake⟩

end Grouping.InPlace

end LineScript
