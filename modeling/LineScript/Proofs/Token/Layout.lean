import LineScript.Proofs.Token.Lookahead

/-!
# Layout between tokens

Blanks and block comments may be added at the beginning of a source and behind each of its tokens:
what is read are the same tokens at other places (`exists_tokens_insert_layout`).
-/

namespace LineScript

open Text

/-- Blanks and complete block comments. -/
inductive IsLayoutText : List Char → Prop where
  | nil : IsLayoutText []
  | blank {c : Char} {text : List Char} (hc : c ∈ [' ', '\t', '\r']) (h : IsLayoutText text) :
      IsLayoutText (c :: text)
  | comment {body text : List Char} (hbody : ¬['*', '/'] <:+: body ++ ['*'])
      (h : IsLayoutText text) : IsLayoutText ('/' :: '*' :: (body ++ '*' :: '/' :: text))

/-- The second text is the first one, or what is left of it right behind one of its lexemes. The mark
of the end is no lexeme: a comment that ends with the source can go on there. -/
inductive ComesBehind : List Char → List Char → Prop where
  | start (text : List Char) : ComesBehind text text
  | lexeme {text rest target : List Char} {n : Nat} {first : Char} {lexeme : Lexeme}
      (hgap : Lexeme.gap text = .ok n) (hrest : text.drop n = first :: rest)
      (hscan : Lexeme.scan first rest = .ok lexeme)
      (h : ComesBehind ((first :: rest).drop lexeme.size) target) : ComesBehind text target

/-! ### Gaps -/

namespace Lexeme

variable {text body : List Char} {n m : Nat}

/-- A block comment ends where its end first comes. -/
lemma gapFrom_blockComment_append (hbody : ¬['*', '/'] <:+: body ++ ['*']) (start n : Nat) :
    gapFrom (.blockComment start) n (body ++ '*' :: '/' :: text) =
      gapFrom .blanks (n + body.length + 2) text := by
  induction body generalizing n with
  | nil =>
    rw [List.nil_append, gapFrom.eq_def]
    rfl
  | cons c body ih =>
    rw [List.cons_append, List.infix_cons_iff, not_or] at hbody
    have hends : ¬(c = '*' ∧ (body ++ '*' :: '/' :: text).head? = some '/') := by
      rintro ⟨rfl, hhead⟩
      cases body with
      | nil => simp at hhead
      | cons d body =>
        obtain rfl : d = '/' := by simpa using hhead
        exact hbody.1 (by simp)
    rw [List.cons_append, gapFrom_blockComment_cons hends, ih hbody.2, List.length_cons]
    congr 1
    omega

/-- The state with another beginning of the comment. -/
def GapState.shift (k : Nat) : GapState → GapState
  | .blockComment start => .blockComment (start + k)
  | state => state

lemma gapFrom_shift (state : GapState) (n : Nat) (text : List Char) (k : Nat) :
    gapFrom (state.shift k) (n + k) text =
      ((gapFrom state n text).map (· + k)).mapError (· + k) := by
  fun_induction gapFrom state n text with
  | case1 | case8 | case9 | case11 => rfl
  | case6 n text hline hblock =>
    have hslash : ∀ n, gapFrom .blanks n ('/' :: text) = .ok n :=
      gapFrom_slash (by cases text <;> simp_all) (by cases text <;> simp_all)
    exact hslash (n + k)
  | case7 n c text hlayout hhash hslash =>
    exact gapFrom_eq_self (by simpa using hlayout) hhash hslash (n + k) text
  | case13 start n text hends ih =>
    have hgoes : ¬('*' = '*' ∧ text.head? = some '/') := by cases text <;> simp_all
    rw [← ih, GapState.shift, gapFrom_blockComment_cons hgoes, Nat.add_right_comm]
  | case2 _ _ _ _ ih | case3 _ _ _ ih | case4 _ _ _ _ ih | case5 _ _ _ _ ih | case10 _ _ _ _ ih
  | case12 _ _ _ ih | case14 _ _ _ _ _ ih =>
    rw [← ih, gapFrom.eq_def]
    simp [*, GapState.shift, Nat.add_right_comm]

lemma gapFrom_add (h : gapFrom .blanks n text = .ok m) (k : Nat) :
    gapFrom .blanks (n + k) text = .ok (m + k) := by
  have hshift := gapFrom_shift .blanks n text k
  rw [h] at hshift
  exact hshift

end Lexeme

/-- Layout is skipped. -/
lemma IsLayoutText.gapFrom_append {layout : List Char} (h : IsLayoutText layout) (n : Nat)
    (text : List Char) : Lexeme.gapFrom .blanks n (layout ++ text) =
      Lexeme.gapFrom .blanks (n + layout.length) text := by
  induction h generalizing n with
  | nil => rfl
  | @blank c layout hc h ih =>
    have hlayout : isLayout c = true := by simpa [isLayout, or_assoc] using hc
    rw [List.cons_append, Lexeme.gapFrom.eq_def]
    simp only [hlayout, if_true]
    rw [ih, List.length_cons, Nat.add_assoc, Nat.add_comm 1]
  | @comment body layout hbody h ih =>
    have hopen : Lexeme.gapFrom .blanks n ('/' :: '*' :: (body ++ '*' :: '/' :: layout) ++ text) =
        Lexeme.gapFrom (.blockComment n) (n + 2) (body ++ '*' :: '/' :: (layout ++ text)) := by
      rw [List.cons_append, List.cons_append, List.append_assoc, Lexeme.gapFrom.eq_def]
      rfl
    rw [hopen, Lexeme.gapFrom_blockComment_append hbody, ih]
    congr 1
    simp only [List.length_cons, List.length_append]
    omega

/-! ### Reading -/

variable {file : String} {p q : Cursor} {ts : List Token} {source : String}
  {before after layout text target : List Char}

/-- What is read does not depend on where it stands or on how much of the gap before it. -/
lemma Reads.exists_of_gap (h : Reads file p ts) {k : Nat} (hrest : q.rest.drop k = p.rest)
    (hgap : ∀ n, Lexeme.gap p.rest = .ok n → Lexeme.gap q.rest = .ok (k + n)) :
    ∃ us, us.map Token.content = ts.map Token.content ∧ Reads file q us := by
  induction h generalizing q k with
  | @last p n hgap' hend =>
    have hhere : (q.skip (k + n)).rest = (p.skip n).rest := by
      rw [Cursor.rest_skip, Cursor.rest_skip, ← hrest, List.drop_drop]
    exact ⟨[⟨.eof, .null, (q.skip (k + n)).place file⟩], rfl,
      .last (hgap n hgap') (hhere.trans hend)⟩
  | @lexeme p n first text lexeme ts hgap' hcons hscan h ih =>
    have hhere : (q.skip (k + n)).rest = (p.skip n).rest := by
      rw [Cursor.rest_skip, Cursor.rest_skip, ← hrest, List.drop_drop]
    have hafter : ((q.skip (k + n)).skip lexeme.size).rest =
        ((p.skip n).skip lexeme.size).rest := by
      rw [(q.skip (k + n)).rest_skip, (p.skip n).rest_skip, hhere]
    obtain ⟨us, hus, hreads⟩ := ih (q := (q.skip (k + n)).skip lexeme.size) (k := 0) hafter
      (by rw [hafter]; simp)
    refine ⟨_ :: us, ?_, .lexeme (hgap n hgap') (hhere.trans hcons) hscan hreads⟩
    rw [List.map_cons, List.map_cons, hus]
    rfl

lemma exists_append_of_drop_cons {n : Nat} {first : Char} {behind : List Char}
    (h : text.drop n = first :: behind) :
    ∃ skipped, skipped.length = n ∧ text = skipped ++ first :: behind := by
  have hlength := congrArg List.length h
  rw [List.length_drop, List.length_cons] at hlength
  refine ⟨text.take n, ?_, by rw [← h, List.take_append_drop]⟩
  rw [List.length_take]
  omega

lemma Lexeme.exists_append_of_drop {first : Char} {lexeme : Lexeme} {behind : List Char}
    (hscan : scan first text = .ok lexeme) (h : (first :: text).drop lexeme.size = behind) :
    ∃ inner, lexeme.size = inner.length + 1 ∧ text = inner ++ behind := by
  obtain ⟨read, rest, htext, hsize, -⟩ := exists_spells_of_scan hscan
  obtain ⟨c, inner, rfl⟩ := List.exists_cons_of_length_pos (hsize ▸ lexeme.size_pos)
  obtain ⟨rfl, rfl⟩ := List.cons.inj htext
  rw [hsize, List.length_cons, List.drop_succ_cons] at h
  exact ⟨inner, hsize, congrArg (inner ++ ·) (List.drop_left.symm.trans h)⟩

/-- A gap and the lexeme behind it are read again when something else comes further behind. -/
lemma Lexeme.exists_exchange {rest : List Char} {first : Char} {lexeme : Lexeme} {n : Nat}
    (hgap : gap text = .ok n) (hcons : text.drop n = first :: rest)
    (hscan : scan first rest = .ok lexeme)
    (hbefore : (first :: rest).drop lexeme.size = before ++ target) :
    ∃ begun, text = begun ++ target ∧ ∀ behind, AtBreak behind →
      gap (begun ++ behind) = .ok n ∧ ∃ rest, (begun ++ behind).drop n = first :: rest ∧
        scan first rest = .ok lexeme ∧ (first :: rest).drop lexeme.size = before ++ behind := by
  obtain ⟨inner, hsize, rfl⟩ := exists_append_of_drop hscan hbefore
  obtain ⟨skipped, hlength, rfl⟩ := exists_append_of_drop_cons hcons
  have hcut : ∀ behind, skipped ++ first :: (inner ++ (before ++ behind)) =
      skipped ++ first :: (inner ++ before) ++ behind := by simp
  refine ⟨skipped ++ first :: (inner ++ before), hcut target, fun behind hbreak =>
    ⟨?_, inner ++ (before ++ behind), ?_, ?_, ?_⟩⟩
  · rw [hcut] at hgap
    exact gapFrom_exchange hgap hbreak (Or.inl (by simp [hlength]))
  · rw [← hcut, ← hlength, List.drop_left]
  · rw [← List.append_assoc] at hscan ⊢
    exact scan_exchange hscan hbreak (by simp [hsize])
  · rw [hsize, List.drop_succ_cons, List.drop_left]

/-- Up to the place behind a lexeme nothing changes if layout comes there, and from there on
nothing but the gap. -/
lemma ComesBehind.exists_reads (h : ComesBehind text target) (hlayout : IsLayoutText layout)
    (hbreak : AtBreak (layout ++ target)) (hreads : Reads file p ts) (hrest : p.rest = text) :
    ∃ before, text = before ++ target ∧ ∀ q : Cursor, q.rest = before ++ (layout ++ target) →
      ∃ us, us.map Token.content = ts.map Token.content ∧ Reads file q us := by
  induction h generalizing p ts with
  | start text =>
    refine ⟨[], rfl, fun q hq => hreads.exists_of_gap (k := layout.length) ?_ fun n hn => ?_⟩
    · rw [hq, hrest]
      exact List.drop_left
    · have hskip := Lexeme.gapFrom_add (hrest ▸ hn) layout.length
      rw [hq, Lexeme.gap, List.nil_append, hlayout.gapFrom_append, hskip, Nat.add_comm]
  | @lexeme text rest target n first lexeme hgap hcons hscan h ih =>
    subst hrest
    have hhere : (p.skip n).rest = first :: rest := (p.rest_skip n).trans hcons
    cases hreads with
    | last hgap' hend =>
      obtain rfl := Except.ok.inj (hgap.symm.trans hgap')
      cases hend.symm.trans hhere
    | lexeme hgap' hcons' hscan' hreads =>
      obtain rfl := Except.ok.inj (hgap.symm.trans hgap')
      obtain ⟨rfl, rfl⟩ := List.cons.inj (hhere.symm.trans hcons')
      obtain rfl := Except.ok.inj (hscan.symm.trans hscan')
      obtain ⟨before, hbefore, hreading⟩ := ih hbreak hreads (by rw [Cursor.rest_skip, hhere])
      obtain ⟨begun, htext, hstep⟩ := Lexeme.exists_exchange hgap hcons hscan hbefore
      refine ⟨begun, htext, fun q hq => ?_⟩
      obtain ⟨hgap', rest', hcons', hscan', hbehind⟩ := hstep _ hbreak
      rw [← hq] at hgap' hcons'
      have hthere : (q.skip n).rest = first :: rest' := (q.rest_skip n).trans hcons'
      obtain ⟨us, hus, hreads'⟩ := hreading ((q.skip n).skip lexeme.size)
        (by rw [Cursor.rest_skip, hthere, hbehind])
      refine ⟨_ :: us, ?_, .lexeme hgap' hthere hscan' hreads'⟩
      rw [List.map_cons, List.map_cons, hus]
      rfl

/-- The tokens of a source stay the same if layout that begins with a blank is added at its
beginning or behind one of them. -/
theorem exists_tokens_insert_layout {c : Char} (hc : c ∈ [' ', '\t', '\r'])
    (hlayout : IsLayoutText layout) (hsource : source.toList = before ++ target)
    (hbehind : ComesBehind source.toList target) (h : tokens source file = .ok ts) :
    ∃ us, us.map Token.content = ts.map Token.content ∧
      tokens (String.ofList (before ++ c :: layout ++ target)) file = .ok us := by
  have hbreak : AtBreak (c :: layout ++ target) := by
    rintro d ⟨⟩
    simp only [List.mem_cons, List.not_mem_nil, or_false] at hc
    rcases hc with rfl | rfl | rfl <;> decide
  obtain ⟨before', hbefore, hreading⟩ :=
    hbehind.exists_reads (.blank hc hlayout) hbreak (tokens_eq_ok_iff.mp h) rfl
  obtain rfl := List.append_cancel_right (hbefore.symm.trans hsource)
  obtain ⟨us, hus, hreads⟩ := hreading (.start (before' ++ c :: layout ++ target) 1) (by
    simp [Cursor.start])
  refine ⟨us, hus, tokens_eq_ok_iff.mpr ?_⟩
  rwa [String.toList_ofList]

end LineScript
