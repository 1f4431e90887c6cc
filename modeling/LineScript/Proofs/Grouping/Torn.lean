import LineScript.Proofs.Grouping.Place
import Mathlib.Data.List.TakeWhile

/-!
# Ends of lines within groups

Within a group the end of a line is passed over. `joinLines` takes it out of the tokens beforehand.
Three times, though, grouping looks at the token directly behind another one: for the colon that
makes a label, for the parenthesis that makes a call, and for the token that closes a group where it
was opened. A line that ends just there tears the two tokens apart (`Torn`).
-/

namespace LineScript

namespace Grouping

variable {n : ℕ} {t u newline : Token} {ts us pre post lines : List Token}

/-! ### Tokens without inner ends of lines -/

/-- The number of groups that are open behind a token. -/
def openBehind (n : ℕ) (t : Token) : ℕ :=
  if isOpener t.kind then n + 1 else if isCloser t.kind then n - 1 else n

/-- The number of groups that are open behind tokens, where `n` are open before them. -/
def depth (n : ℕ) (ts : List Token) : ℕ := ts.foldl openBehind n

/-- The tokens without the ends of lines within groups, where `n` groups are open before them. -/
def joinLines (n : ℕ) : List Token → List Token
  | [] => []
  | t :: ts =>
    if t.kind = .newline ∧ n ≠ 0 then joinLines n ts else t :: joinLines (openBehind n t) ts

/-- What becomes of the first token depends on whether the second one is directly behind it. -/
def looksAt (t u : Token) : Bool :=
  (canLabel t.kind && u.kind = .colon) || (t.kind = .word && u.kind = .leftParen) ||
    (isOpener t.kind && isCloser u.kind)

/-- Within a group a line ends between two such tokens; `n` groups are open before all tokens. -/
inductive Torn : ℕ → List Token → Prop where
  | here {n : ℕ} {t u : Token} {lines ts : List Token} (hne : lines ≠ [])
      (hlines : ∀ l ∈ lines, l.kind = .newline) (hopen : openBehind n t ≠ 0)
      (hlook : looksAt t u = true) : Torn n (t :: (lines ++ u :: ts))
  | later {n : ℕ} {t : Token} {ts : List Token} (h : Torn (openBehind n t) ts) : Torn n (t :: ts)

lemma openBehind_of_other (hopener : isOpener t.kind = false) (hcloser : isCloser t.kind = false)
    (n : ℕ) : openBehind n t = n := by
  simp [openBehind, hopener, hcloser]

lemma openBehind_of_newline (h : t.kind = .newline) (n : ℕ) : openBehind n t = n :=
  openBehind_of_other (by rw [h]; rfl) (by rw [h]; rfl) n

lemma openBehind_of_isAtom (h : isAtom t.kind = true) (n : ℕ) : openBehind n t = n :=
  openBehind_of_other (isOpener_eq_false_of_isAtom h) (isCloser_eq_false_of_isAtom h) n

lemma depth_append (n : ℕ) (ts us : List Token) : depth n (ts ++ us) = depth (depth n ts) us :=
  List.foldl_append

lemma joinLines_of_newline (ht : t.kind = .newline) (hn : n ≠ 0) (ts : List Token) :
    joinLines n (t :: ts) = joinLines n ts := by
  rw [joinLines, if_pos ⟨ht, hn⟩]

lemma joinLines_of_ne (h : ¬(t.kind = .newline ∧ n ≠ 0)) (ts : List Token) :
    joinLines n (t :: ts) = t :: joinLines (openBehind n t) ts := by
  rw [joinLines, if_neg h]

lemma joinLines_append (n : ℕ) (ts us : List Token) :
    joinLines n (ts ++ us) = joinLines n ts ++ joinLines (depth n ts) us := by
  induction ts generalizing n with
  | nil => rfl
  | cons t ts ih =>
    by_cases ht : t.kind = .newline ∧ n ≠ 0
    · rw [List.cons_append, joinLines_of_newline ht.1 ht.2, joinLines_of_newline ht.1 ht.2, ih,
        depth, depth, List.foldl_cons, openBehind_of_newline ht.1]
    · rw [List.cons_append, joinLines_of_ne ht, joinLines_of_ne ht, ih]
      rfl

lemma mem_of_mem_joinLines (h : t ∈ joinLines n ts) : t ∈ ts := by
  induction ts generalizing n with
  | nil => exact h
  | cons u ts ih =>
    by_cases hu : u.kind = .newline ∧ n ≠ 0
    · rw [joinLines_of_newline hu.1 hu.2] at h
      exact List.mem_cons_of_mem u (ih h)
    · rw [joinLines_of_ne hu] at h
      rcases List.mem_cons.mp h with rfl | h
      · exact List.mem_cons_self
      · exact List.mem_cons_of_mem u (ih h)

/-! ### Torn tokens -/

lemma Torn.of_depth (h : Torn (depth n pre) ts) : Torn n (pre ++ ts) := by
  induction pre generalizing n with
  | nil => exact h
  | cons t pre ih => exact .later (ih h)

lemma Torn.append (h : Torn n ts) (us : List Token) : Torn n (ts ++ us) := by
  induction h with
  | here hne hlines hopen hlook =>
    rw [List.cons_append, List.append_assoc]
    exact .here hne hlines hopen hlook
  | later h ih => exact .later ih

/-- One more end of a line does not put torn tokens together. -/
lemma Torn.insert (h : Torn n (pre ++ post)) (hnewline : newline.kind = .newline) :
    Torn n (pre ++ newline :: post) := by
  induction pre generalizing n with
  | nil =>
    refine .later ?_
    rwa [openBehind_of_newline hnewline]
  | cons t pre ih =>
    rw [List.cons_append] at h ⊢
    generalize heq : pre ++ post = rest at h
    cases h with
    | later h => exact .later (ih (heq ▸ h))
    | @here _ _ u lines ts hne hlines hopen hlook =>
      rcases List.append_eq_append_iff.mp heq with ⟨lines', rfl, rfl⟩ | ⟨pre', rfl, hpost⟩
      · -- The new end of a line is one of those between the two tokens.
        have hall : ∀ l ∈ pre ++ newline :: lines', l.kind = .newline := by
          simp only [List.forall_mem_append, List.forall_mem_cons] at hlines ⊢
          exact ⟨hlines.1, hnewline, hlines.2⟩
        have htorn : Torn n (t :: ((pre ++ newline :: lines') ++ u :: ts)) :=
          .here (by simp) hall hopen hlook
        simpa using htorn
      · cases pre' with
        | nil =>
          -- It comes directly before the second one.
          obtain rfl : u :: ts = post := by simpa using hpost
          have hall : ∀ l ∈ lines ++ [newline], l.kind = .newline := by
            simp only [List.forall_mem_append, List.forall_mem_singleton]
            exact ⟨hlines, hnewline⟩
          have htorn : Torn n (t :: ((lines ++ [newline]) ++ u :: ts)) :=
            .here (by simp) hall hopen hlook
          simpa using htorn
        | cons v pre' =>
          obtain ⟨rfl, rfl⟩ := List.cons.inj hpost
          rw [List.append_assoc, List.cons_append]
          exact .here hne hlines hopen hlook

/-- Between two such tokens within a group the end of a line tears them apart. -/
lemma torn_of_looksAt (hnewline : newline.kind = .newline) (hdepth : depth n pre ≠ 0)
    (ht : t ∈ pre.getLast?) (hu : u ∈ post.head?) (hlook : looksAt t u = true) :
    Torn n (pre ++ newline :: post) := by
  obtain ⟨pre, rfl⟩ := List.getLast?_eq_some_iff.mp ht
  obtain ⟨post, rfl⟩ := List.head?_eq_some_iff.mp hu
  rw [depth_append] at hdepth
  rw [List.append_assoc]
  have hlines : ∀ l ∈ [newline], l.kind = .newline := by simpa using hnewline
  have htorn : Torn (depth n pre) (t :: ([newline] ++ u :: post)) :=
    .here (List.cons_ne_nil _ _) hlines hdepth hlook
  exact htorn.of_depth

/-! ### Deciding whether tokens are torn -/

/-- A line ends between the token and one that it looks at. -/
def tears (n : ℕ) (t : Token) (ts : List Token) : Bool :=
  openBehind n t ≠ 0 && ts.head?.any (·.kind = .newline) &&
    (ts.dropWhile (·.kind = .newline)).head?.any (looksAt t)

lemma ne_newline_of_looksAt (h : looksAt t u = true) : u.kind ≠ .newline := by
  intro hu
  simp [looksAt, hu, isCloser] at h

lemma tears_iff : tears n t us = true ↔ openBehind n t ≠ 0 ∧ ∃ lines u ts, us = lines ++ u :: ts ∧
    lines ≠ [] ∧ (∀ l ∈ lines, l.kind = .newline) ∧ looksAt t u = true := by
  simp only [tears, Bool.and_eq_true, decide_eq_true_eq, and_assoc]
  refine and_congr_right fun _ => ⟨?_, ?_⟩
  · rintro ⟨hhead, hlook⟩
    have hsplit := us.takeWhile_append_dropWhile (p := (·.kind = .newline))
    cases hdrop : us.dropWhile (·.kind = .newline) with
    | nil => simp [hdrop] at hlook
    | cons u ts =>
      rw [hdrop] at hsplit hlook
      refine ⟨_, u, ts, hsplit.symm, ?_, ?_, hlook⟩
      · intro hnil
        rw [hnil, List.nil_append] at hsplit
        rw [← hsplit] at hhead
        exact ne_newline_of_looksAt hlook (by simpa using hhead)
      · intro l hl
        simpa using List.mem_takeWhile_imp hl
  · rintro ⟨lines, u, ts, rfl, hne, hlines, hlook⟩
    have hu := ne_newline_of_looksAt hlook
    have hdrop : (lines ++ u :: ts).dropWhile (·.kind = .newline) = u :: ts := by
      rw [List.dropWhile_append_of_pos (by simpa using hlines),
        List.dropWhile_cons_of_neg (by simpa)]
    obtain ⟨l, lines, rfl⟩ := List.exists_cons_of_ne_nil hne
    exact ⟨by simpa using hlines l List.mem_cons_self, by rw [hdrop]; exact hlook⟩

lemma torn_cons_iff : Torn n (t :: ts) ↔ tears n t ts = true ∨ Torn (openBehind n t) ts := by
  rw [tears_iff]
  constructor
  · intro h
    cases h with
    | here hne hlines hopen hlook => exact .inl ⟨hopen, _, _, _, rfl, hne, hlines, hlook⟩
    | later h => exact .inr h
  · rintro (⟨hopen, lines, u, ts, rfl, hne, hlines, hlook⟩ | h)
    · exact .here hne hlines hopen hlook
    · exact .later h

instance decidableTorn : (n : ℕ) → (ts : List Token) → Decidable (Torn n ts)
  | _, [] => .isFalse nofun
  | n, t :: ts =>
    have := decidableTorn (openBehind n t) ts
    decidable_of_iff _ torn_cons_iff.symm

end Grouping

end LineScript
