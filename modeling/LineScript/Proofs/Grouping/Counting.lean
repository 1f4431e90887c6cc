import LineScript.Proofs.Finishing.Counting
import LineScript.Proofs.Grouping.Labels
import LineScript.Proofs.Grouping.Weight
import Mathlib.Algebra.BigOperators.Intervals

/-!
# Calls that tokens tell

Which calls a list of regions has can be told from the tokens without grouping them: it is enough to
look at every token with the ones directly before and behind it (`callCountList_regions`). Lists are
calls too. There is one for every region, one for every group that is not closed where it was
opened, and one more for every comma.
-/

namespace LineScript

namespace Grouping

open Traced

variable {s : Source} {t last : Token} {ts : List Token} {previous : Option Token}
  {group : TokenKind × String} {stack : Openings} {node : Tree} {nodes regions : List Tree}
  {wanted : String → Bool}

/-! ### Tokens and their neighbours -/

/-- The number of tokens that satisfy a condition on the token directly before, the token itself and
the one directly behind. -/
def countAt (p : Option Token → Token → Option Token → Bool) (previous : Option Token) :
    List Token → ℕ
  | [] => 0
  | t :: ts => (if p previous t ts.head? then 1 else 0) + countAt p (some t) ts

/-- A wanted word directly before a parenthesis. -/
def isCallOf (wanted : String → Bool) (t : Token) (next : Option Token) : Bool :=
  t.kind = .word && wanted t.name && next.any (·.kind = .leftParen)

/-- A parenthesis that is not directly behind a word. -/
def isFreeParen (previous : Option Token) (t : Token) : Bool :=
  t.kind = .leftParen && !previous.any (·.kind = .word)

/-- A token that opens a group and is not directly before the one that closes it. -/
def isFilled (t : Token) (next : Option Token) : Bool :=
  (opens? t.kind).any fun group => !next.any (·.kind = group.1)

/-- A token that opens a group of a wanted name, unless the group belongs to a word. -/
def isGroupOf (wanted : String → Bool) (previous : Option Token) (t : Token) : Bool :=
  bearsNode previous t && (opens? t.kind).any (wanted ·.2)

lemma countAt_eq_zero {p : Option Token → Token → Option Token → Bool}
    (h : ∀ previous t next, p previous t next = false) (previous : Option Token)
    (ts : List Token) : countAt p previous ts = 0 := by
  induction ts generalizing previous with
  | nil => rfl
  | cons t ts ih => simp [countAt, h, ih]

lemma countAt_eq_countP (p : Token → Bool) (previous : Option Token) (ts : List Token) :
    countAt (fun _ t _ => p t) previous ts = ts.countP p := by
  induction ts generalizing previous with
  | nil => rfl
  | cons t ts ih => rw [countAt, ih, List.countP_cons, Nat.add_comm]

/-! ### Groups of each kind -/

/-- No token opens a list. -/
lemma isGroupOf_list (previous : Option Token) (t : Token) :
    isGroupOf (· = Tree.listName) previous t = false := by
  cases hkind : t.kind <;>
    simp [isGroupOf, opens?, hkind, Tree.listName, Tree.parenName, Tree.bracketName, Tree.braceName]

lemma isGroupOf_paren (previous : Option Token) (t : Token) :
    isGroupOf (· = Tree.parenName) previous t = isFreeParen previous t := by
  cases hkind : t.kind <;>
    simp [isGroupOf, isFreeParen, bearsNode, opens?, hkind, Tree.parenName, Tree.bracketName,
      Tree.braceName]

lemma isGroupOf_bracket_or_brace (previous : Option Token) (t : Token) :
    isGroupOf (fun name => name = Tree.bracketName || name = Tree.braceName) previous t =
      (t.kind = .leftBracket || t.kind = .leftBrace) := by
  cases hkind : t.kind <;>
    simp [isGroupOf, bearsNode, opens?, hkind, Tree.parenName, Tree.bracketName, Tree.braceName]

/-! ### Calls of nodes -/

/-- The node is a call of a wanted name. -/
def isCall (wanted : String → Bool) : Tree → Bool
  | .call _ name _ => wanted name
  | _ => false

/-- A call is told by its word and parenthesis, or by the token that opens the group. -/
lemma isCall_of_represents (h : Represents t ts node) :
    isCall wanted node = (isCallOf wanted t ts.head? || (opens? t.kind).any (wanted ·.2)) := by
  have hfree : ∀ us, IsFree t us → isCallOf wanted t us.head? = false := by
    intro us hus
    cases us with
    | nil => simp [isCallOf]
    | cons u us => simpa [isCallOf] using fun ht _ hu => (hus u rfl).2 ⟨ht, hu⟩
  cases h with
  | label ht hu => cases hkind : t.kind <;> simp_all [canLabel, isCall, isCallOf, opens?]
  | call ht hu => simp [isCall, isCallOf, opens?, ht, hu]
  | group ht =>
    cases hkind : t.kind <;> simp_all [isCall, isCallOf, opens?]
  | symbol ht | «variable» ht => simp [isCall, isCallOf, opens?, ht]
  | identifier ht hfree' => simp [isCall, hfree _ hfree', opens?, ht]
  | literal hv hfree' =>
    have hopens := isOpener_eq_false_iff.mp (isOpener_eq_false_of_constant? hv)
    simp [isCall, hfree _ hfree', hopens]

/-- The calls of wanted names are told by the tokens that are read. -/
lemma countP_isCall (h : Covers (occurrences previous ts) nodes) :
    nodes.countP (isCall wanted) = countAt (fun _ => isCallOf wanted) previous ts +
      countAt (fun previous t _ => isGroupOf wanted previous t) previous ts := by
  induction ts generalizing previous nodes with
  | nil =>
    obtain rfl := List.forall₂_nil_left_iff.mp h
    rfl
  | cons t ts ih =>
    have hword : t.kind = .word → opens? t.kind = none := fun hword => by rw [hword]; rfl
    rw [occurrences] at h
    rw [countAt, countAt]
    cases hbears : bearsNode previous t with
    | true =>
      rw [if_pos hbears] at h
      obtain ⟨node, rest, hnode, hrest, rfl⟩ := List.forall₂_cons_left_iff.mp h
      have hone : (if isCall wanted node then 1 else 0) =
          (if isCallOf wanted t ts.head? then 1 else 0) +
            if isGroupOf wanted previous t then 1 else 0 := by
        rw [isCall_of_represents hnode, isGroupOf, hbears, Bool.true_and]
        by_cases ht : t.kind = .word
        · simp [hword ht]
        · simp [isCallOf, ht]
      rw [List.countP_cons, ih hrest, hone]
      omega
    | false =>
      rw [hbears] at h
      have ht : t.kind ≠ .word := fun ht => by simp [bearsNode, ht] at hbears
      rw [ih h]
      simp [isCallOf, isGroupOf, ht, hbears]

/-! ### Argument lists of nodes -/

/-- The number of argument lists of a node. -/
def listsOf : Tree → ℕ
  | .call _ _ lists => lists.length
  | _ => 0

/-- The number of argument lists that the tokens tell. -/
def argumentTotal : List Token → ℕ
  | [] => 0
  | t :: ts => (if isOpener t.kind then argumentCount ts else 0) + argumentTotal ts

lemma weight_eq (nodes : List Tree) : weight nodes = nodes.length + (nodes.map listsOf).sum := by
  induction nodes with
  | nil => rfl
  | cons node nodes ih =>
    have hnode : nodeWeight node = listsOf node + 1 := by cases node <;> rfl
    rw [weight, hnode, ih, List.length_cons, List.map_cons, List.sum_cons]
    omega

lemma tokenWeight_eq (previous : Option Token) (ts : List Token) :
    tokenWeight previous ts = (occurrences previous ts).length + argumentTotal ts := by
  induction ts generalizing previous with
  | nil => rfl
  | cons t ts ih =>
    have hbears : (if bearsNode previous t then [(t, ts)] else []).length =
        if bearsNode previous t then 1 else 0 := by split_ifs <;> rfl
    rw [tokenWeight, share, ih, occurrences, List.length_append, hbears, argumentTotal]
    omega

/-- The nodes have the argument lists that their tokens tell. -/
lemma sum_listsOf (h : Covers (occurrences none ts) nodes) :
    (nodes.map listsOf).sum = argumentTotal ts := by
  have hweight : weight nodes + owed none ts = tokenWeight none ts := weight_add_owed h
  have howed : owed none ts = 0 := by cases ts <;> simp [owed]
  have hlength : (occurrences none ts).length = nodes.length := h.length_eq
  rw [howed, weight_eq, tokenWeight_eq, hlength] at hweight
  omega

/-! ### Argument lists and commas -/

/-- Behind the opening token of a group that is closed, the next token that closes one closes it. -/
lemma argumentCount_eq (ho : opens? t.kind = some group)
    (h : scan ((openedBy previous t, group.1) :: stack) (some t) ts = .ok []) :
    argumentCount ts = (if isFilled t ts.head? then 1 else 0) + directCommas 0 ts := by
  have hfilled : isFilled t ts.head? = !ts.head?.any (·.kind = group.1) := by simp [isFilled, ho]
  cases ts with
  | nil => cases h
  | cons u us =>
    cases hu : isCloser u.kind with
    | true =>
      have hclosed : u.kind = group.1 := by
        rw [scan] at h
        cases hadvance : advance? ((openedBy previous t, group.1) :: stack) (some t) u with
        | none =>
          rw [hadvance] at h
          cases h
        | some stack' =>
          rcases advance?_cases hadvance with ⟨_, _, hopens, -⟩ | ⟨-, o, hstack⟩ | ⟨-, hnot, -⟩
          · cases (isCloser_eq_false_of_opens hopens).symm.trans hu
          · exact (Prod.mk.inj (List.cons.inj hstack).1).2.symm
          · cases hnot.symm.trans hu
      rw [argumentCount_of_isCloser hu, hfilled, directCommas_zero_of_closer hu]
      simp [hclosed]
    | false =>
      have hne : u.kind ≠ group.1 := by
        rintro heq
        rw [heq, isCloser_of_opens ho] at hu
        cases hu
      rw [argumentCount_of_not_isCloser hu, hfilled]
      simp [hne, Nat.add_comm]

/-- Every comma is a direct one of the innermost group around it, which is among the tokens or was
open before them. -/
lemma argumentTotal_add_sum (h : scan stack previous ts = .ok []) :
    argumentTotal ts + ∑ depth ∈ Finset.range stack.length, directCommas depth ts =
      countAt (fun _ => isFilled) previous ts + ts.countP (·.kind = .comma) := by
  induction ts generalizing stack previous with
  | nil =>
    obtain rfl : stack = [] := Except.ok.inj h
    rfl
  | cons t ts ih =>
    have hstep := h
    rw [scan] at hstep
    cases hadvance : advance? stack previous t with
    | none =>
      rw [hadvance] at hstep
      cases hstep
    | some stack' =>
      rw [hadvance] at hstep
      have hrest := ih hstep
      rw [argumentTotal, countAt, List.countP_cons]
      rcases advance?_cases hadvance with ⟨closer, name, ho, rfl⟩ | ⟨hc, o, rfl⟩ |
        ⟨ho, hc, rfl, hcomma, -⟩
      · have hopener : isOpener t.kind = true := by simp [isOpener, ho]
        have hne : t.kind ≠ .comma := fun heq => by simp [heq, opens?] at ho
        have hsum : ∑ depth ∈ Finset.range stack.length, directCommas depth (t :: ts) =
            ∑ depth ∈ Finset.range stack.length, directCommas (depth + 1) ts :=
          Finset.sum_congr rfl fun depth _ => directCommas_of_opener hopener depth ts
        rw [List.length_cons, Finset.sum_range_succ'] at hrest
        rw [if_pos hopener, argumentCount_eq ho hstep, hsum]
        simp only [hne, decide_false, Bool.false_eq_true, if_false]
        omega
      · have hopener := isOpener_eq_false_of_isCloser hc
        have hfilled : isFilled t ts.head? = false := by
          simp [isFilled, isOpener_eq_false_iff.mp hopener]
        have hne : t.kind ≠ .comma := fun heq => by simp [heq, isCloser] at hc
        have hsum : ∑ depth ∈ Finset.range stack'.length, directCommas (depth + 1) (t :: ts) =
            ∑ depth ∈ Finset.range stack'.length, directCommas depth ts :=
          Finset.sum_congr rfl fun depth _ => directCommas_of_closer hc depth ts
        rw [List.length_cons, Finset.sum_range_succ', directCommas_zero_of_closer hc, hsum]
        simp only [hopener, hfilled, hne, decide_false, Bool.false_eq_true, if_false]
        omega
      · have hfilled : isFilled t ts.head? = false := by
          simp [isFilled, isOpener_eq_false_iff.mp ho]
        simp only [ho, hfilled, Bool.false_eq_true, if_false, decide_eq_true_eq]
        by_cases heq : t.kind = .comma
        · obtain ⟨x, stack, rfl⟩ := List.exists_cons_of_ne_nil (hcomma heq)
          rw [List.length_cons, Finset.sum_range_succ'] at hrest ⊢
          simp only [directCommas_of_comma heq, heq, if_true, Nat.add_one_ne_zero, if_false,
            Nat.zero_add]
          omega
        · simp only [directCommas_of_other ho hc heq, heq, if_false]
          omega

/-! ### All calls of regions -/

/-- What a node adds to the calls of wanted names: its own one, and its argument lists. -/
def callsOf (wanted : String → Bool) (node : Tree) : ℕ :=
  (if isCall wanted node then 1 else 0) + if wanted Tree.listName then listsOf node else 0

lemma sum_callsOf (wanted : String → Bool) (nodes : List Tree) :
    (nodes.map (callsOf wanted)).sum = nodes.countP (isCall wanted) +
      if wanted Tree.listName then (nodes.map listsOf).sum else 0 := by
  induction nodes with
  | nil => simp
  | cons node nodes ih =>
    rw [List.map_cons, List.sum_cons, ih, List.countP_cons, callsOf, List.map_cons, List.sum_cons]
    split_ifs <;> omega

open LineScript.Tree (callCount callCountList)

/-- The element has the calls of the nodes that it is read as. -/
def CallsAreRead (wanted : String → Bool) (t : Tree) : Prop :=
  callCount wanted t = ((readElement t).map (callsOf wanted)).sum

lemma callCountList_elements {ts : List Tree} (h : ∀ t ∈ ts, CallsAreRead wanted t) :
    callCountList wanted ts = ((ts.flatMap readElement).map (callsOf wanted)).sum := by
  induction ts with
  | nil => rfl
  | cons t ts ih =>
    obtain ⟨ht, hts⟩ := List.forall_mem_cons.mp h
    rw [callCountList, ht, ih hts, List.flatMap_cons, List.map_append, List.sum_append]

lemma callCountList_lists {ls : List Siblings} (h : ∀ l ∈ ls, ∀ e ∈ l.2, CallsAreRead wanted e) :
    callCountList wanted (ls.map Siblings.call) = (if wanted Tree.listName then ls.length else 0) +
      ((readLists (ls.map Siblings.call)).map (callsOf wanted)).sum := by
  rw [readLists_map_call]
  induction ls with
  | nil => simp [callCountList]
  | cons l ls ih =>
    obtain ⟨hl, hls⟩ := List.forall_mem_cons.mp h
    rw [List.map_cons, callCountList, ih hls, Siblings.call, callCount, callCountList_elements hl,
      List.flatMap_cons, List.map_append, List.sum_append, List.length_cons]
    split_ifs <;> omega

lemma IsElement.callsAreRead {registry : Registry} {tokens : List Token} {e : Tree}
    (h : IsElement (Bears registry tokens) e) : CallsAreRead wanted e := by
  induction h with
  | atom h =>
    rcases h.cases with ⟨p, n, rfl⟩ | ⟨u, -, -, f, rfl⟩ | ⟨p, n, -, rfl⟩ | ⟨p, v, rfl⟩ |
      ⟨p, n, rfl⟩ <;> simp [CallsAreRead, callCount, readElement, callsOf, isCall, listsOf]
  | @group p name ls h ih =>
    rw [CallsAreRead, callCount, callCountList_lists ih, readElement, List.map_cons, List.sum_cons,
      callsOf, isCall, listsOf, List.length_map]
    omega

/-- Every list that is grouped is passed by the scan. -/
lemma scan_of_regions (hlast : last.kind = .eof) (heof : ∀ t ∈ ts, t.kind ≠ .eof)
    (hnumbers : HasLargeNumbersOnly ts) (h : s.regions (ts ++ [last]) = .ok regions) :
    scan [] none ts = .ok [] := by
  have hwritable : ∀ m ∈ marks ts, m.IsWritable := by
    by_contra hnot
    obtain ⟨pre, t, u, post, rfl, hlarge, hu, hpre⟩ := exists_first_label hnumbers hnot
    have ht := hnumbers t (by simp) hlarge
    have hregions := regions_of_first_label (s := s) hlast heof ht hlarge hu hpre
    rw [h] at hregions
    split at hregions <;> cases hregions
  have hend := agreesAtEnd_of_isWritable (s := s) hlast heof hwritable
  rw [h] at hend
  cases hscan : scan [] none ts with
  | error t =>
    rw [hscan] at hend
    cases hend
  | ok stack =>
    rw [hscan] at hend
    cases stack with
    | nil => rfl
    | cons x stack => cases hend

/-- The calls of regions are told by the tokens and their neighbours. -/
theorem callCountList_regions (hlast : last.kind = .eof) (heof : ∀ t ∈ ts, t.kind ≠ .eof)
    (hnumbers : HasLargeNumbersOnly ts) (h : s.regions (ts ++ [last]) = .ok regions)
    (wanted : String → Bool) : callCountList wanted regions =
      (if wanted Tree.listName then regions.length +
        (countAt (fun _ => isFilled) none (ts ++ [last]) +
          (ts ++ [last]).countP (·.kind = .comma)) else 0) +
      (countAt (fun _ => isCallOf wanted) none (ts ++ [last]) +
        countAt (fun previous t _ => isGroupOf wanted previous t) none (ts ++ [last])) := by
  have hcovers := covers_regions hlast heof h
  have hscan : scan [] none (ts ++ [last]) = .ok [] := by
    have hend : advance? [] (ts.getLast?.or none) last = some [] :=
      advance?_of_other (by simp [hlast, isOpener, opens?]) (by simp [hlast, isCloser])
        (by simp [hlast]) (by simp [hlast])
    rw [scan_append, scan_of_regions hlast heof hnumbers h, ok_bind, scan, hend]
    rfl
  have hlists := sum_listsOf hcovers
  have hcommas := argumentTotal_add_sum hscan
  obtain ⟨ls, rfl, hls⟩ := exists_siblings (isRegion_of_mem_regions hlast heof h)
  rw [callCountList_lists fun l hl e he => (hls l hl e he).callsAreRead, sum_callsOf,
    countP_isCall hcovers, hlists, List.length_map]
  simp only [List.length_nil, Finset.range_zero, Finset.sum_empty, Nat.add_zero] at hcommas
  rw [hcommas]
  split_ifs <;> omega

end Grouping

end LineScript
