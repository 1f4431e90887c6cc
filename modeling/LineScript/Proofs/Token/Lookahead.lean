import LineScript.Proofs.Token.Wording

/-!
# What lexemes see of the text behind them

A gap or a lexeme that ends within a text, or right behind it, does not depend on what follows the
text: this can be exchanged for anything that begins with a break. No lexeme has more characters
than the text that it is read from.
-/

namespace LineScript

open Text

namespace Lexeme

variable {first quote : Char} {text after rest : List Char} {lexeme : Lexeme} {n m : Nat}

/-! ### Gaps -/

lemma gapFrom_bounds {state : GapState} (h : gapFrom state n text = .ok m) :
    n ≤ m ∧ m ≤ n + text.length := by
  fun_induction gapFrom state n text generalizing m with
  | case1 | case6 | case7 | case8 | case9 =>
    obtain rfl := Except.ok.inj h
    omega
  | case11 => cases h
  | case2 _ _ _ _ ih | case3 _ _ _ ih | case4 _ _ _ _ ih | case5 _ _ _ _ ih | case10 _ _ _ _ ih
  | case12 _ _ _ ih | case13 _ _ _ _ ih | case14 _ _ _ _ _ ih =>
    have hbounds := ih h
    simp only [List.length_cons]
    omega

lemma lt_of_gapFrom_blockComment {c : Char} {start : Nat}
    (h : gapFrom (.blockComment start) n (c :: text) = .ok m) : n < m := by
  rw [gapFrom.eq_def] at h
  simp only at h
  split_ifs at h
  · split at h <;> exact Nat.lt_of_lt_of_le (by omega) (gapFrom_bounds h).1
  · exact (gapFrom_bounds h).1

/-- A slash begins no comment by itself. -/
lemma gapFrom_slash (hline : text.head? ≠ some '/') (hblock : text.head? ≠ some '*') (n : Nat) :
    gapFrom .blanks n ('/' :: text) = .ok n := by
  have hnone : ∀ c, text.head? ≠ some c → ['/', c].isPrefixOf ('/' :: text) = false := by
    intro c hc
    cases text with
    | nil => rfl
    | cons d text =>
      have hne : c ≠ d := by
        rintro rfl
        exact hc rfl
      simp [List.isPrefixOf, hne]
  exact gapFrom_of_not_comment (by decide) (hnone '/' hline) (hnone '*' hblock) n

/-- A gap from one number of characters on ends at another one before the end of the text, or just
there if a line feed comes next. -/
def EndsWithin (n m : Nat) (text after rest : List Char) : Prop :=
  m < n + text.length ∨ after = [] ∧ rest.head? = some '\n'

lemma EndsWithin.tail {c : Char} (h : EndsWithin n m (c :: text) after rest) :
    EndsWithin (n + 1) m text after rest :=
  h.imp_left fun h => by
    rw [List.length_cons] at h
    omega

lemma gapFrom_exchange_nil {state : GapState} (h : gapFrom state n after = .ok m)
    (hend : EndsWithin n m [] after rest) : gapFrom state n rest = .ok m := by
  rcases hend with hlt | ⟨rfl, hnewline⟩
  · have hbounds := gapFrom_bounds h
    simp only [List.length_nil] at hlt
    omega
  · obtain ⟨tail, rfl⟩ := List.head?_eq_some_iff.mp hnewline
    rw [gapFrom.eq_def] at h ⊢
    cases state with
    | blanks | lineComment => exact h
    | blockComment => cases h

/-- In front of a break a slash at the end of the text begins no comment either. -/
lemma gapFrom_exchange_slash (h : gapFrom .blanks n ('/' :: after) = .ok m) (hrest : AtBreak rest)
    (hend : EndsWithin n m ['/'] after rest) : gapFrom .blanks n ('/' :: rest) = .ok m := by
  have hsame : m = n := by
    rcases hend with hlt | ⟨rfl, -⟩
    · have hbounds := gapFrom_bounds h
      simp only [List.length_singleton] at hlt
      omega
    · rw [gapFrom.eq_def] at h
      exact (Except.ok.inj h).symm
  rw [hsame]
  apply gapFrom_slash
  · exact fun hc => hrest.ne (by decide) '/' hc rfl
  · exact fun hc => hrest.ne (by decide) '*' hc rfl

lemma gapFrom_exchange {state : GapState} (h : gapFrom state n (text ++ after) = .ok m)
    (hrest : AtBreak rest) (hend : EndsWithin n m text after rest) :
    gapFrom state n (text ++ rest) = .ok m := by
  fun_induction gapFrom state n text generalizing m with
  | case1 | case8 | case11 => exact gapFrom_exchange_nil h hend
  | case2 n c text hlayout ih =>
    rw [List.cons_append, gapFrom.eq_def] at h ⊢
    simp only [hlayout, if_true] at h ⊢
    exact ih h hend.tail
  | case3 n text hlayout ih =>
    rw [List.cons_append, gapFrom.eq_def] at h ⊢
    exact ih h hend.tail
  | case4 _ _ _ _ ih | case5 _ _ _ _ ih | case12 _ _ _ ih =>
    rw [List.cons_append, List.cons_append, gapFrom.eq_def] at h ⊢
    exact ih h hend.tail.tail
  | case6 n text hline hblock =>
    cases text with
    | nil => exact gapFrom_exchange_slash h hrest hend
    | cons d text =>
      have hnone : ∀ tail, gapFrom .blanks n ('/' :: d :: tail) = .ok n := fun tail =>
        gapFrom_slash (fun hd => hline text (by cases hd; rfl))
          (fun hd => hblock text (by cases hd; rfl)) n
      exact (hnone _).trans ((hnone _).symm.trans h)
  | case7 n c text hlayout hhash hslash =>
    rw [List.cons_append, gapFrom_eq_self (by simpa using hlayout) hhash hslash] at h ⊢
    exact h
  | case9 n text =>
    rw [List.cons_append, gapFrom.eq_def] at h ⊢
    exact h
  | case13 start n text hends ih =>
    cases text with
    | nil =>
      -- the comment cannot end with a star
      rcases hend with hlt | ⟨rfl, -⟩
      · have hgoes := lt_of_gapFrom_blockComment h
        simp only [List.length_singleton] at hlt
        omega
      · cases h
    | cons d text =>
      have hd : d ≠ '/' := by
        rintro rfl
        exact hends text rfl
      rw [List.cons_append, gapFrom_blockComment_cons (by simp [hd])] at h ⊢
      exact ih h hend.tail
  | case10 _ _ _ hne ih | case14 _ _ _ _ hne ih =>
    rw [List.cons_append, gapFrom.eq_def] at h ⊢
    simp only [hne, if_false] at h ⊢
    exact ih h hend.tail

lemma atBreak_newline (tail : List Char) : AtBreak ('\n' :: tail) := by
  simp [AtBreak, breaks]

/-- A gap that ends with the text ends there too if a line feed comes behind it. -/
lemma gapFrom_append_newline {state : GapState} (h : gapFrom state n text = .ok m)
    (tail : List Char) : gapFrom state n (text ++ '\n' :: tail) = .ok m := by
  rw [← List.append_nil text] at h
  exact gapFrom_exchange h (atBreak_newline tail) (Or.inr ⟨rfl, rfl⟩)

/-! ### The length of a lexeme -/

/-- A lexeme has no more characters than the text. -/
theorem size_le (h : scan first text = .ok lexeme) : lexeme.size ≤ text.length + 1 := by
  obtain ⟨read, behind, htext, hsize, -⟩ := exists_spells_of_scan h
  have hlength := congrArg List.length htext
  rw [List.length_cons, List.length_append] at hlength
  omega

/-! ### Words and variables -/

lemma takeWhile_exchange {p : Char → Bool} (hp : ∀ c ∈ breaks, p c = false) (hrest : AtBreak rest)
    (hle : ((text ++ after).takeWhile p).length ≤ text.length) :
    (text ++ rest).takeWhile p = (text ++ after).takeWhile p := by
  induction text with
  | nil =>
    have hnil : after.takeWhile p = [] := by simpa using hle
    rw [List.nil_append, List.nil_append, hnil]
    exact takeWhile_append_atBreak (l := []) (by simp) hp hrest
  | cons c text ih =>
    simp only [List.cons_append, List.takeWhile_cons] at hle ⊢
    split_ifs at hle ⊢
    · rw [ih (by simpa using hle)]
    · rfl

lemma word_exchange (hrest : AtBreak rest)
    (hle : (word first (text ++ after)).size ≤ text.length + 1) :
    word first (text ++ rest) = word first (text ++ after) := by
  have htake := takeWhile_exchange VarName.isNameChar_of_mem_breaks hrest
    (Nat.le_of_succ_le_succ hle)
  simp only [word, htake]

lemma atVariable_exchange (h : atVariable (text ++ after) = some lexeme) (hrest : AtBreak rest)
    (hle : lexeme.size ≤ text.length + 1) : atVariable (text ++ rest) = some lexeme := by
  unfold atVariable at h
  dsimp only at h
  split_ifs at h with hstart
  obtain rfl := Option.some.inj h
  have htake := takeWhile_exchange VarName.isNameChar_of_mem_breaks hrest
    (Nat.le_of_succ_le_succ hle)
  cases text with
  | nil =>
    -- the name has a character, which does not stand within the text
    cases after with
    | nil => simp at hstart
    | cons c after =>
      have hchar : isNameChar c = true := by
        simp only [List.nil_append, List.head?_cons, Option.any_some] at hstart
        simp [isNameChar, hstart]
      simp [hchar] at hle
  | cons c text =>
    have hstart' : (c :: text ++ rest).head?.any isNameStart = true := hstart
    simp only [atVariable, htake, hstart', if_true]

/-! ### Numbers -/

lemma hexadecimal_exchange (h : hexadecimal (text ++ after) = .ok lexeme) (hrest : AtBreak rest)
    (hle : lexeme.size ≤ text.length + 2) : hexadecimal (text ++ rest) = .ok lexeme := by
  unfold hexadecimal at h
  dsimp only at h
  split_ifs at h with hempty
  obtain rfl := Except.ok.inj h
  have htake := takeWhile_exchange (p := fun c => (hexDigitValue? c).isSome)
    (eq_false_of_all (by decide)) hrest (Nat.le_of_add_le_add_right hle)
  simp only [hexadecimal, htake, hempty]
  rfl

lemma fractionOf_cons (c : Char) (text : List Char) : fractionOf (c :: text) =
    if isDigit c then fractionOf text else if c = '.' then text.takeWhile isDigit else [] := by
  unfold fractionOf
  rw [List.dropWhile_cons]
  split_ifs with hdigit hpoint
  · rfl
  · subst hpoint
    rfl
  · split
    · next heq => exact absurd (List.cons.inj heq).1 hpoint
    · rfl

/-- The number of characters of a decimal numeral. -/
def decimalSize (text : List Char) : Nat :=
  (text.takeWhile isDigit).length +
    if fractionOf text = [] then 0 else 1 + (fractionOf text).length

lemma size_of_decimal {h : 0 < (text.takeWhile isDigit).length}
    (hdecimal : decimal text h = .ok lexeme) : lexeme.size = decimalSize text := by
  unfold decimalSize
  split_ifs with hnil
  · rw [decimal_of_integer h hnil] at hdecimal
    cases hread : Numeral.readNatural (text.takeWhile isDigit) with
    | error fault => simp [hread, Except.map, Except.mapError] at hdecimal
    | ok n =>
      rw [hread] at hdecimal
      obtain rfl := Except.ok.inj hdecimal
      rfl
  · rw [decimal_of_fraction h hnil] at hdecimal
    cases hread : Numeral.readFloat (text.takeWhile isDigit) (fractionOf text) with
    | error fault => simp [hread, Except.map, Except.mapError] at hdecimal
    | ok x =>
      rw [hread] at hdecimal
      obtain rfl := Except.ok.inj hdecimal
      exact Nat.add_assoc _ _ _

lemma fractionOf_of_atBreak (hrest : AtBreak rest) : fractionOf rest = [] := by
  cases rest with
  | nil => rfl
  | cons c rest =>
    have hdigit := Digits.isDigit_of_mem_breaks c (hrest c rfl)
    have hpoint : c ≠ '.' := hrest.ne (by decide) c rfl
    simp [fractionOf_cons, hdigit, hpoint]

lemma fractionOf_exchange (hrest : AtBreak rest)
    (hle : decimalSize (text ++ after) ≤ text.length) :
    fractionOf (text ++ rest) = fractionOf (text ++ after) := by
  induction text with
  | nil =>
    have hnil : fractionOf after = [] := by
      by_contra hne
      simp [decimalSize, hne] at hle
    rw [List.nil_append, List.nil_append, hnil, fractionOf_of_atBreak hrest]
  | cons c text ih =>
    simp only [decimalSize, List.cons_append, fractionOf_cons, List.takeWhile_cons] at ih hle ⊢
    by_cases hdigit : isDigit c = true
    · simp only [hdigit, if_true, List.length_cons] at hle ⊢
      exact ih (by omega)
    · simp only [hdigit, if_false, Bool.false_eq_true, List.length_nil] at hle ⊢
      by_cases hpoint : c = '.'
      · simp only [hpoint, if_true] at hle ⊢
        refine takeWhile_exchange Digits.isDigit_of_mem_breaks hrest ?_
        split_ifs at hle with hnil
        · simp [hnil]
        · simp only [List.length_cons] at hle
          omega
      · simp only [hpoint, if_false]

lemma decimal_exchange (text : List Char) {hpos : 0 < ((text ++ after).takeWhile isDigit).length}
    (h : decimal (text ++ after) hpos = .ok lexeme) (hrest : AtBreak rest)
    (hle : lexeme.size ≤ text.length) (hpos' : 0 < ((text ++ rest).takeWhile isDigit).length) :
    decimal (text ++ rest) hpos' = .ok lexeme := by
  rw [size_of_decimal h] at hle
  have hfraction := fractionOf_exchange hrest hle
  have hwhole := takeWhile_exchange Digits.isDigit_of_mem_breaks hrest (Nat.le_of_add_right_le hle)
  rw [← h]
  by_cases hnil : fractionOf (text ++ after) = []
  · rw [decimal_of_integer hpos hnil, decimal_of_integer hpos' (hfraction.trans hnil)]
    simp only [hwhole]
  · rw [decimal_of_fraction hpos hnil, decimal_of_fraction hpos' (hfraction.trans_ne hnil)]
    simp only [hwhole, hfraction]

lemma two_lt_size_of_hexadecimal (h : hexadecimal text = .ok lexeme) : 2 < lexeme.size := by
  unfold hexadecimal at h
  dsimp only at h
  split_ifs at h with hempty
  obtain rfl := Except.ok.inj h
  have hpos := List.length_pos_iff.mpr (mt List.isEmpty_iff.mpr hempty)
  exact Nat.lt_add_of_pos_left hpos

lemma number_exchange {h : isDigit first = true}
    (hnumber : number first (text ++ after) h = .ok lexeme) (hrest : AtBreak rest)
    (hle : lexeme.size ≤ text.length + 1) : number first (text ++ rest) h = .ok lexeme := by
  unfold number at hnumber ⊢
  cases text with
  | nil =>
    have hmark : isHexMark (first :: rest) = false :=
      Digits.isHexMark_eq_false (hrest.ne (by decide)) (hrest.ne (by decide))
    split_ifs at hnumber with hhex
    · have hlt := two_lt_size_of_hexadecimal hnumber
      simp only [List.length_nil] at hle
      omega
    · rw [if_neg (by simp [hmark])]
      exact decimal_exchange [first] hnumber hrest hle _
  | cons c text =>
    have hmark : isHexMark (first :: (c :: text ++ rest)) =
        isHexMark (first :: (c :: text ++ after)) := by
      by_cases hzero : first = '0'
      · subst hzero
        rfl
      · simp [isHexMark, hzero]
    rw [hmark]
    split_ifs at hnumber ⊢
    · exact hexadecimal_exchange hnumber hrest hle
    · exact decimal_exchange (first :: c :: text) hnumber hrest hle _

/-! ### Strings and symbols -/

lemma string_exchange (hquote : '\\' ≠ quote) (h : string quote (text ++ after) = .ok lexeme)
    (hle : lexeme.size ≤ text.length + 1) : string quote (text ++ rest) = .ok lexeme := by
  unfold string at h ⊢
  split at h
  · next chars size hbody =>
    obtain rfl := Except.ok.inj h
    obtain ⟨body, behind, htext, rfl, hquotes⟩ := Quotes.exists_of_stringBody hbody
    have hbegins : body ++ [quote] <+: text ++ after := ⟨behind, by rw [htext]; simp⟩
    obtain ⟨tail, rfl⟩ := List.prefix_of_prefix_length_le hbegins (List.prefix_append text after)
      (by simpa using Nat.le_of_succ_le_succ hle)
    have hbody' : stringBody quote (body ++ [quote] ++ tail ++ rest) =
        .ok (chars, body.length + 1) := by
      simpa using hquotes.stringBody_append hquote (tail ++ rest)
    rw [hbody']
  · cases h

lemma symbol?_exchange (text : List Char) {s : String} (h : symbol? (text ++ after) = some s)
    (hrest : AtBreak rest) (hle : s.length ≤ text.length) : symbol? (text ++ rest) = some s := by
  have hbreaks : ∀ t ∈ Operator.spellings, t.toList.all (· ∉ breaks) = true := by decide
  obtain ⟨hbegins, longer, shorter, hspellings, hlonger⟩ := List.find?_eq_some_iff_append.mp h
  have hlonger' : ∀ t ∈ longer, (!t.toList.isPrefixOf (text ++ rest)) = true := by
    intro t ht
    have hmem : t ∈ Operator.spellings := hspellings ▸ List.mem_append_left _ ht
    rw [isPrefixOf_append_atBreak (by simpa using hbreaks t hmem) hrest, Bool.not_eq_true',
      Bool.eq_false_iff]
    intro hshort
    have hlong : t.toList.isPrefixOf (text ++ after) = true :=
      List.isPrefixOf_iff_prefix.mpr
        ((List.isPrefixOf_iff_prefix.mp hshort).trans (List.prefix_append _ _))
    exact absurd (hlonger t ht) (by simp [hlong])
  have hwithin : s.toList <+: text :=
    List.prefix_of_prefix_length_le (List.isPrefixOf_iff_prefix.mp hbegins)
      (List.prefix_append _ _) (by rwa [String.length_toList])
  have hbegins' : s.toList.isPrefixOf (text ++ rest) = true :=
    List.isPrefixOf_iff_prefix.mpr (hwithin.trans (List.prefix_append _ _))
  exact List.find?_eq_some_iff_append.mpr ⟨hbegins', longer, shorter, hspellings, hlonger'⟩

/-! ### All of them -/

/-- What comes behind a lexeme can be exchanged. -/
theorem scan_exchange (h : scan first (text ++ after) = .ok lexeme) (hrest : AtBreak rest)
    (hle : lexeme.size ≤ text.length + 1) : scan first (text ++ rest) = .ok lexeme := by
  unfold scan at h ⊢
  split_ifs at h ⊢ with hnewline hname hdigit hquote hat
  · exact h
  · obtain rfl := Except.ok.inj h
    rw [word_exchange hrest hle]
  · exact number_exchange h hrest hle
  · exact string_exchange (by rintro rfl; simp at hquote) h hle
  · split at h
    · next hvariable =>
      obtain rfl := Except.ok.inj h
      rw [atVariable_exchange hvariable hrest hle]
    · cases h
  · split at h
    · exact h
    · split at h
      · next s hsymbol =>
        obtain rfl := Except.ok.inj h
        have hsymbol' := symbol?_exchange (first :: text) hsymbol hrest hle
        split
        · next heq =>
          obtain rfl := Option.some.inj (hsymbol'.symm.trans heq)
          rfl
        · next heq => cases hsymbol'.symm.trans heq
      · cases h

/-- No lexeme needs to see what comes behind a line feed. -/
theorem scan_append_newline (h : scan first text = .ok lexeme) (tail : List Char) :
    scan first (text ++ '\n' :: tail) = .ok lexeme := by
  have hle := size_le h
  rw [← List.append_nil text] at h
  exact scan_exchange h (atBreak_newline tail) hle

end Lexeme

end LineScript
