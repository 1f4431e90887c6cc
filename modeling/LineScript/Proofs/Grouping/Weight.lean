import LineScript.Proofs.Grouping.Occurrence
import LineScript.Proofs.Grouping.Torn
import LineScript.Proofs.Tree.Relocation

/-!
# The weight of regions

The weight of nodes is their number together with that of their argument lists. The tokens of a
script tell the weight of its regions (`weight_add_owed`). Without the ends of lines within groups
they never tell a greater one, and a smaller one if a line tears two tokens apart and no colon is
left without its name: a parenthesis behind a name has no node of its own, and a group that is
closed where it was opened has no argument list.
-/

namespace LineScript

namespace Grouping

variable {n : ℕ} {t u : Token} {ts us lines : List Token} {previous previous' : Option Token}
  {node : Tree} {nodes : List Tree}

/-! ### Weights -/

/-- A node with its argument lists. -/
def nodeWeight : Tree → ℕ
  | .call _ _ lists => lists.length + 1
  | _ => 1

/-- Nodes with their argument lists. -/
def weight : List Tree → ℕ
  | [] => 0
  | node :: nodes => nodeWeight node + weight nodes

/-- What a token adds to the weight. -/
def share (previous : Option Token) (t : Token) (ts : List Token) : ℕ :=
  (if bearsNode previous t then 1 else 0) + if isOpener t.kind then argumentCount ts else 0

/-- The weight that tokens tell. -/
def tokenWeight (previous : Option Token) : List Token → ℕ
  | [] => 0
  | t :: ts => share previous t ts + tokenWeight (some t) ts

/-- The argument lists of a call that begins with the token before, which are told by its
parenthesis. -/
def owed (previous : Option Token) : List Token → ℕ
  | [] => 0
  | t :: ts => if previous.any (·.kind = .word) ∧ t.kind = .leftParen then argumentCount ts else 0

lemma owed_of_ne_word (h : t.kind ≠ .word) (ts : List Token) : owed (some t) ts = 0 := by
  cases ts <;> simp [owed, h]

lemma owed_of_isFree (h : IsFree t ts) : owed (some t) ts = 0 := by
  cases ts with
  | nil => rfl
  | cons u ts => simpa [owed] using fun ht hu => absurd ⟨ht, hu⟩ (h u rfl).2

lemma isOpener_eq_false_of_constant? {v : Value} (h : constant? t = some v) :
    isOpener t.kind = false := by
  unfold constant? at h
  split at h <;> simp_all [isOpener, opens?]

/-- The weight of a node is told by its token and, if it is a call, the one behind. -/
lemma nodeWeight_of_represents (h : Represents t ts node) :
    nodeWeight node = 1 + (if isOpener t.kind then argumentCount ts else 0) + owed (some t) ts := by
  cases h with
  | @label u ts ht hu =>
    have howed : owed (some t) (u :: ts) = 0 := by simp [owed, hu]
    rw [isOpener_eq_false_of_isAtom (isAtom_of_canLabel ht), howed]
    rfl
  | @call u ts lists ht hu hlists =>
    have howed : owed (some t) (u :: ts) = argumentCount ts := by simp [owed, ht, hu]
    rw [howed, ht, ← hlists, nodeWeight, Nat.add_comm]
    rfl
  | @group _ closer name lists ht hlists =>
    have hword : t.kind ≠ .word := by
      intro hword
      rw [hword] at ht
      cases ht
    have hopener : isOpener t.kind = true := by simp [isOpener, ht]
    rw [owed_of_ne_word hword, if_pos hopener, ← hlists, nodeWeight]
    omega
  | symbol ht =>
    rw [owed_of_ne_word (by simp [ht]), ht]
    rfl
  | «variable» ht =>
    rw [owed_of_ne_word (by simp [ht]), ht]
    rfl
  | identifier ht hfree =>
    rw [owed_of_isFree hfree, ht]
    rfl
  | literal hv hfree =>
    rw [owed_of_isFree hfree, isOpener_eq_false_of_constant? hv]
    rfl

lemma owed_of_bearsNode (h : bearsNode previous t = true) (ts : List Token) :
    owed previous (t :: ts) = 0 := by
  simp only [bearsNode, Bool.and_eq_true, Bool.not_eq_true', Bool.and_eq_false_iff] at h
  refine if_neg ?_
  rintro ⟨hprevious, ht⟩
  simp [hprevious, ht] at h

lemma owed_of_not_bearsNode (h : bearsNode previous t = false) (ts : List Token) :
    owed previous (t :: ts) = if isOpener t.kind then argumentCount ts else 0 := by
  rw [owed]
  cases hkind : t.kind <;> simp_all [bearsNode, isOpener, opens?]

/-- The weight of the nodes that tokens are read as is told by the tokens. -/
lemma weight_add_owed (h : Covers (occurrences previous ts) nodes) :
    weight nodes + owed previous ts = tokenWeight previous ts := by
  induction ts generalizing previous nodes with
  | nil =>
    obtain rfl := List.forall₂_nil_left_iff.mp h
    rfl
  | cons t ts ih =>
    rw [occurrences] at h
    cases hbears : bearsNode previous t with
    | true =>
      rw [if_pos hbears] at h
      obtain ⟨node, rest, hnode, hrest, rfl⟩ := List.forall₂_cons_left_iff.mp h
      have hweight : nodeWeight node =
          1 + (if isOpener t.kind then argumentCount ts else 0) + owed (some t) ts :=
        nodeWeight_of_represents hnode
      have htail := ih hrest
      rw [owed_of_bearsNode hbears, tokenWeight, share, if_pos hbears, ← htail, weight, hweight]
      omega
    | false =>
      -- Only the parenthesis of a call adds to the weight without a node of its own.
      rw [hbears] at h
      have hword : t.kind ≠ .word := by
        rintro hword
        simp [bearsNode, hword] at hbears
      have htail := ih h
      rw [owed_of_ne_word hword] at htail
      rw [owed_of_not_bearsNode hbears, tokenWeight, share, hbears, ← htail]
      simp only [Bool.false_eq_true, if_false]
      omega

/-! ### Without places -/

open LineScript.Tree (unplaced unplacedList_eq_map)

lemma nodeWeight_unplaced (t : Tree) : nodeWeight t.unplaced = nodeWeight t := by
  cases t with
  | call p name lists => rw [unplaced, unplacedList_eq_map, nodeWeight, nodeWeight, List.length_map]
  | _ => rfl

lemma weight_map_unplaced (nodes : List Tree) : weight (nodes.map unplaced) = weight nodes := by
  induction nodes with
  | nil => rfl
  | cons t nodes ih => rw [List.map_cons, weight, weight, nodeWeight_unplaced, ih]

mutual

lemma readElement_unplaced : (t : Tree) → readElement t.unplaced = (readElement t).map unplaced
  | .call p name lists => by
    rw [unplaced, unplacedList_eq_map, readElement, readElement, readLists_map_unplaced lists,
      List.map_cons, unplaced, unplacedList_eq_map]
  | .hole | .symbol .. | .label .. | .identifier .. | .literal .. | .variable .. | .void .. |
    .entry .. | .join .. | .bracket .. | .brace .. => rfl

lemma readElements_map_unplaced : (ts : List Tree) →
    readElements (ts.map unplaced) = (readElements ts).map unplaced
  | [] => rfl
  | t :: ts => by
    rw [List.map_cons, readElements, readElements, readElement_unplaced t,
      readElements_map_unplaced ts, List.map_append]

lemma readLists_map_unplaced : (ls : List Tree) →
    readLists (ls.map unplaced) = (readLists ls).map unplaced
  | [] => rfl
  | .call p name elements :: ls => by
    rw [List.map_cons, unplaced, unplacedList_eq_map, readLists, readLists,
      readElements_map_unplaced elements, readLists_map_unplaced ls, List.map_append]
    split_ifs
    · rfl
    · rw [List.map_singleton, unplaced, unplacedList_eq_map]
  | .hole :: ls | .symbol .. :: ls | .label .. :: ls | .identifier .. :: ls | .literal .. :: ls |
    .variable .. :: ls | .void .. :: ls | .entry .. :: ls | .join .. :: ls | .bracket .. :: ls |
    .brace .. :: ls => by
    simp [unplaced, readLists, readLists_map_unplaced ls]

end

/-! ### Without ends of lines -/

/-- The commas of a group do not depend on ends of lines. -/
lemma directCommas_joinLines (n d : ℕ) (ts : List Token) :
    directCommas d (joinLines n ts) = directCommas d ts := by
  induction ts generalizing n d with
  | nil => rfl
  | cons t ts ih =>
    by_cases ht : t.kind = .newline ∧ n ≠ 0
    · rw [joinLines_of_newline ht.1 ht.2, ih]
      exact (directCommas_of_other (by rw [ht.1]; rfl) (by rw [ht.1]; rfl) (by simp [ht.1])
        d ts).symm
    · rw [joinLines_of_ne ht]
      cases hopener : isOpener t.kind with
      | true => rw [directCommas_of_opener hopener, directCommas_of_opener hopener, ih]
      | false =>
        cases hcloser : isCloser t.kind with
        | true =>
          cases d with
          | zero => rw [directCommas_zero_of_closer hcloser, directCommas_zero_of_closer hcloser]
          | succ d => rw [directCommas_of_closer hcloser, directCommas_of_closer hcloser, ih]
        | false =>
          by_cases hcomma : t.kind = .comma
          · rw [directCommas_of_comma hcomma, directCommas_of_comma hcomma, ih]
          · rw [directCommas_of_other hopener hcloser hcomma,
              directCommas_of_other hopener hcloser hcomma, ih]

lemma argumentCount_le (ts : List Token) : argumentCount ts ≤ directCommas 0 ts + 1 := by
  unfold argumentCount
  split <;> omega

lemma argumentCount_of_isCloser (h : isCloser t.kind = true) (ts : List Token) :
    argumentCount (t :: ts) = 0 := by
  simp [argumentCount, h]

lemma argumentCount_of_not_isCloser (h : isCloser t.kind = false) (ts : List Token) :
    argumentCount (t :: ts) = directCommas 0 (t :: ts) + 1 := by
  simp [argumentCount, h]

lemma argumentCount_joinLines_le (n : ℕ) (ts : List Token) :
    argumentCount (joinLines n ts) ≤ argumentCount ts := by
  cases ts with
  | nil => exact Nat.le_refl _
  | cons t ts =>
    cases hcloser : isCloser t.kind with
    | true =>
      have ht : ¬(t.kind = .newline ∧ n ≠ 0) := by
        rintro ⟨ht, -⟩
        simp [ht, isCloser] at hcloser
      rw [joinLines_of_ne ht, argumentCount_of_isCloser hcloser]
      exact Nat.zero_le _
    | false =>
      rw [argumentCount_of_not_isCloser hcloser, ← directCommas_joinLines n]
      exact argumentCount_le _

/-- The second of two tokens is a name if the first one is. -/
def KeepsName (previous previous' : Option Token) : Prop :=
  previous.any (·.kind = .word) = true → previous'.any (·.kind = .word) = true

lemma KeepsName.refl (previous : Option Token) : KeepsName previous previous := id

lemma keepsName_of_newline (h : t.kind = .newline) (previous' : Option Token) :
    KeepsName (some t) previous' := by
  simp [KeepsName, h]

lemma share_le (h : KeepsName previous previous') (t : Token)
    (hts : isOpener t.kind = true → argumentCount us ≤ argumentCount ts) :
    share previous' t us ≤ share previous t ts := by
  have hbears : bearsNode previous' t = true → bearsNode previous t = true := by
    simp only [bearsNode, Bool.and_eq_true, Bool.not_eq_true', Bool.and_eq_false_iff]
    refine And.imp_right (Or.imp_right fun hprevious => ?_)
    by_contra hword
    rw [h (by simpa using hword)] at hprevious
    cases hprevious
  refine Nat.add_le_add ?_ ?_
  · split_ifs with hfirst hsecond
    · exact Nat.le_refl 1
    · exact absurd (hbears hfirst) hsecond
    · exact Nat.zero_le 1
    · exact Nat.le_refl 0
  · split_ifs with hopener
    · exact hts hopener
    · exact Nat.le_refl 0

lemma share_lt (h : KeepsName previous previous') (ht : isOpener t.kind = true)
    (hts : argumentCount us < argumentCount ts) : share previous' t us < share previous t ts := by
  have hle : share previous' t us ≤ share previous t us := share_le h t fun _ => Nat.le_refl _
  have hlt : share previous t us < share previous t ts := by
    simp only [share, ht, if_true]
    omega
  exact Nat.lt_of_le_of_lt hle hlt

lemma share_of_isCloser (h : isCloser t.kind = true) (previous : Option Token) (ts : List Token) :
    share previous t ts = 0 := by
  simp [share, bearsNode_of_isCloser h, isOpener_eq_false_of_isCloser h]

lemma share_of_newline (h : t.kind = .newline) (previous : Option Token) (ts : List Token) :
    share previous t ts = 0 := by
  simp [share, bearsNode, h, isOpener, opens?]

/-- Without the ends of lines within groups the weight is no greater. -/
lemma tokenWeight_joinLines_le (h : KeepsName previous previous') :
    tokenWeight previous' (joinLines n ts) ≤ tokenWeight previous ts := by
  induction ts generalizing n previous previous' with
  | nil => exact Nat.le_refl 0
  | cons t ts ih =>
    by_cases ht : t.kind = .newline ∧ n ≠ 0
    · rw [joinLines_of_newline ht.1 ht.2, tokenWeight, share_of_newline ht.1, Nat.zero_add]
      exact ih (keepsName_of_newline ht.1 previous')
    · rw [joinLines_of_ne ht, tokenWeight, tokenWeight]
      exact Nat.add_le_add (share_le h t fun _ => argumentCount_joinLines_le _ ts)
        (ih (.refl _))

lemma joinLines_lines (hn : n ≠ 0) (hlines : ∀ l ∈ lines, l.kind = .newline) (us : List Token) :
    joinLines n (lines ++ us) = joinLines n us := by
  induction lines with
  | nil => rfl
  | cons l lines ih =>
    obtain ⟨hl, hlines⟩ := List.forall_mem_cons.mp hlines
    rw [List.cons_append, joinLines_of_newline hl hn, ih hlines]

lemma tokenWeight_lines (hne : lines ≠ []) (hlines : ∀ l ∈ lines, l.kind = .newline)
    (previous : Option Token) (us : List Token) : ∃ l, l.kind = .newline ∧
      tokenWeight previous (lines ++ us) = tokenWeight (some l) us := by
  induction lines generalizing previous with
  | nil => exact absurd rfl hne
  | cons l lines ih =>
    obtain ⟨hl, hlines⟩ := List.forall_mem_cons.mp hlines
    rw [List.cons_append, tokenWeight, share_of_newline hl, Nat.zero_add]
    cases lines with
    | nil => exact ⟨l, hl, rfl⟩
    | cons l' lines => exact ih (by simp) hlines (some l)

/-- The parenthesis of a call gets a node of its own behind the end of a line. -/
lemma tokenWeight_lt_of_call (hne : lines ≠ []) (hlines : ∀ l ∈ lines, l.kind = .newline)
    (hopen : openBehind n t ≠ 0) (ht : t.kind = .word) (hu : u.kind = .leftParen)
    (h : KeepsName previous previous') :
    tokenWeight previous' (joinLines n (t :: (lines ++ u :: ts))) <
      tokenWeight previous (t :: (lines ++ u :: ts)) := by
  obtain ⟨l, hl, hweight⟩ := tokenWeight_lines hne hlines (some t) (u :: ts)
  have hname : share previous' t (joinLines (openBehind n t) (lines ++ u :: ts)) ≤
      share previous t (lines ++ u :: ts) :=
    share_le h t fun _ => argumentCount_joinLines_le _ _
  have hparen : share (some t) u (joinLines (openBehind (openBehind n t) u) ts) <
      share (some l) u ts := by
    have hcall (us : List Token) : share (some t) u us = argumentCount us := by
      simp [share, bearsNode, ht, hu, isOpener, opens?]
    have hgroup : share (some l) u ts = argumentCount ts + 1 := by
      simp [share, bearsNode, hu, hl, isOpener, opens?, Nat.add_comm]
    rw [hcall, hgroup]
    exact Nat.lt_succ_of_le (argumentCount_joinLines_le _ ts)
  have hrest : tokenWeight (some u) (joinLines (openBehind (openBehind n t) u) ts) ≤
      tokenWeight (some u) ts := tokenWeight_joinLines_le (.refl _)
  rw [joinLines_of_ne (by simp [ht]), tokenWeight, tokenWeight, hweight]
  refine Nat.add_lt_add_of_le_of_lt hname ?_
  rw [joinLines_lines hopen hlines, joinLines_of_ne (by simp [hu]), tokenWeight, tokenWeight]
  exact Nat.add_lt_add_of_lt_of_le hparen hrest

/-- A group that is closed behind the end of a line has an argument list. -/
lemma tokenWeight_lt_of_close (hne : lines ≠ []) (hlines : ∀ l ∈ lines, l.kind = .newline)
    (hopen : openBehind n t ≠ 0) (ht : isOpener t.kind = true) (hu : isCloser u.kind = true)
    (h : KeepsName previous previous') :
    tokenWeight previous' (joinLines n (t :: (lines ++ u :: ts))) <
      tokenWeight previous (t :: (lines ++ u :: ts)) := by
  obtain ⟨l, -, hweight⟩ := tokenWeight_lines hne hlines (some t) (u :: ts)
  have ht' : t.kind ≠ .newline := by
    intro hnewline
    simp [hnewline, isOpener, opens?] at ht
  have hu' : u.kind ≠ .newline := by
    intro hnewline
    simp [hnewline, isCloser] at hu
  have hlists : argumentCount (joinLines (openBehind n t) (lines ++ u :: ts)) <
      argumentCount (lines ++ u :: ts) := by
    rw [joinLines_lines hopen hlines, joinLines_of_ne (by simp [hu']), argumentCount_of_isCloser hu]
    obtain ⟨line, lines, rfl⟩ := List.exists_cons_of_ne_nil hne
    have hline : isCloser line.kind = false := by
      rw [hlines line List.mem_cons_self]
      rfl
    rw [List.cons_append, argumentCount_of_not_isCloser hline]
    exact Nat.succ_pos _
  have hrest : tokenWeight (some u) (joinLines (openBehind (openBehind n t) u) ts) ≤
      tokenWeight (some u) ts := tokenWeight_joinLines_le (.refl _)
  rw [joinLines_of_ne (by simp [ht']), tokenWeight, tokenWeight, hweight]
  refine Nat.add_lt_add_of_lt_of_le (share_lt h ht hlists) ?_
  rwa [joinLines_lines hopen hlines, joinLines_of_ne (by simp [hu']), tokenWeight, tokenWeight,
    share_of_isCloser hu, share_of_isCloser hu, Nat.zero_add, Nat.zero_add]

/-- A colon at the beginning of a line. -/
def HasStrayColon (ts : List Token) : Prop :=
  ∃ pre newline colon post, ts = pre ++ newline :: colon :: post ∧ newline.kind = .newline ∧
    colon.kind = .colon

/-- Where a line tears two tokens apart, the weight is smaller without the ends of lines, unless
they are a name and its colon. -/
lemma Torn.tokenWeight_lt (h : Torn n ts) : HasStrayColon ts ∨
    ∀ previous previous', KeepsName previous previous' →
      tokenWeight previous' (joinLines n ts) < tokenWeight previous ts := by
  induction h with
  | @later n t ts h ih =>
    refine ih.imp ?_ ?_
    · rintro ⟨pre, newline, colon, post, rfl, hnewline, hcolon⟩
      exact ⟨t :: pre, newline, colon, post, rfl, hnewline, hcolon⟩
    · intro hlt previous previous' hprevious
      by_cases ht : t.kind = .newline ∧ n ≠ 0
      · rw [openBehind_of_newline ht.1] at hlt
        rw [joinLines_of_newline ht.1 ht.2, tokenWeight, share_of_newline ht.1, Nat.zero_add]
        exact hlt _ _ (keepsName_of_newline ht.1 previous')
      · rw [joinLines_of_ne ht, tokenWeight, tokenWeight]
        exact Nat.add_lt_add_of_le_of_lt
          (share_le hprevious t fun _ => argumentCount_joinLines_le _ ts) (hlt _ _ (.refl _))
  | @here n t u lines ts hne hlines hopen hlook =>
    simp only [looksAt, Bool.or_eq_true, Bool.and_eq_true, decide_eq_true_eq] at hlook
    rcases hlook with (⟨hcan, hcolon⟩ | ⟨hword, hparen⟩) | ⟨hopener, hcloser⟩
    · left
      rcases List.eq_nil_or_concat lines with rfl | ⟨lines, newline, rfl⟩
      · exact absurd rfl hne
      · exact ⟨t :: lines, newline, u, ts, by simp, hlines newline (by simp), hcolon⟩
    · exact Or.inr fun _ _ => tokenWeight_lt_of_call hne hlines hopen hword hparen
    · exact Or.inr fun _ _ => tokenWeight_lt_of_close hne hlines hopen hopener hcloser

end Grouping

end LineScript
