import LineScript.Grouping
import LineScript.Proofs.Trace

/-!
# Runs over marks

The marks of a list of tokens before the one that ends the script are put in their places one
after the other, and the end is met last. `Progress.put` says what happens to a stretch of tokens
that leaves all open groups as they are: its trees become siblings.
-/

namespace LineScript

namespace Grouping

/-! ### Marks -/

/-- The mark of the token that ends a script. -/
def Mark.isEnd : Mark → Bool
  | .single t => t.kind = .eof
  | _ => false

/-- The token that a mark is about. -/
def Mark.token : Mark → Token
  | .label t | .call t | .single t => t

lemma isEnd_eq_false_of_mem_marks {ts : List Token} (hts : ∀ t ∈ ts, t.kind ≠ .eof) :
    ∀ m ∈ marks ts, m.isEnd = false := by
  fun_induction marks ts with
  | case1 => simp
  | case2 t =>
    intro m hm
    obtain rfl := List.mem_singleton.mp hm
    simpa [Mark.isEnd] using hts t List.mem_cons_self
  | case3 t u ts _ ih =>
    intro m hm
    rcases List.mem_cons.mp hm with rfl | hm
    · rfl
    · exact ih (fun v hv => hts v (by simp [hv])) m hm
  | case4 t u ts _ _ ih =>
    intro m hm
    rcases List.mem_cons.mp hm with rfl | hm
    · rfl
    · exact ih (fun v hv => hts v (by simp [hv])) m hm
  | case5 t u ts _ _ ih =>
    intro m hm
    rcases List.mem_cons.mp hm with rfl | hm
    · simpa [Mark.isEnd] using hts t List.mem_cons_self
    · exact ih (fun v hv => hts v (List.mem_cons_of_mem _ hv)) m hm

/-- No other token belongs to one that is neither a label nor a function name. -/
lemma marks_cons {t : Token} (hlabel : canLabel t.kind = false) (ts : List Token) :
    marks (t :: ts) = .single t :: marks ts := by
  have hword : t.kind ≠ .word := by
    rintro hword
    simp [hword, canLabel] at hlabel
  cases ts with
  | nil => rfl
  | cons u ts => simp [marks, hlabel, hword]

/-- The token makes neither a label nor a call with the one behind it. -/
def IsFree (t : Token) (ts : List Token) : Prop :=
  ∀ u ∈ ts.head?, ¬(canLabel t.kind = true ∧ u.kind = .colon) ∧
    ¬(t.kind = .word ∧ u.kind = .leftParen)

lemma marks_of_isFree {t : Token} {ts : List Token} (h : IsFree t ts) :
    marks (t :: ts) = .single t :: marks ts := by
  cases ts with
  | nil => rfl
  | cons u ts =>
    obtain ⟨hlabel, hcall⟩ := h u rfl
    rw [marks, if_neg (by simpa using hlabel), if_neg (by simpa using hcall)]

lemma marks_label {t u : Token} (ht : canLabel t.kind = true) (hu : u.kind = .colon)
    (ts : List Token) : marks (t :: u :: ts) = .label t :: marks ts := by
  rw [marks, if_pos (by simp [ht, hu])]

/-- Marks are made of two lists by themselves unless the last token of the first one makes a mark
with the second one. -/
lemma marks_append_of_isFree {ts us : List Token} (h : ∀ t ∈ ts.getLast?, IsFree t us) :
    marks (ts ++ us) = marks ts ++ marks us := by
  have hlast : ∀ {t : Token} {ts : List Token}, (∀ v ∈ (t :: ts).getLast?, IsFree v us) →
      ∀ v ∈ ts.getLast?, IsFree v us := by
    intro t ts h v hv
    rw [List.getLast?_cons, Option.mem_def.mp hv] at h
    exact h v rfl
  fun_induction marks ts with
  | case1 => rfl
  | case2 t => exact marks_of_isFree (h t rfl)
  | case3 t u ts hmark ih => simp [marks, hmark, ih (hlast (hlast h))]
  | case4 t u ts hmark hmark' ih => simp [marks, hmark, hmark', ih (hlast (hlast h))]
  | case5 t u ts hmark hmark' ih =>
    have htail := ih (hlast h)
    simp only [List.cons_append] at htail ⊢
    rw [marks, if_neg hmark, if_neg hmark', htail]

lemma marks_append {us : List Token} (hcolon : ∀ u ∈ us.head?, u.kind ≠ .colon)
    (hparen : ∀ u ∈ us.head?, u.kind ≠ .leftParen) (ts : List Token) :
    marks (ts ++ us) = marks ts ++ marks us :=
  marks_append_of_isFree fun _ _ u hu => ⟨fun h => hcolon u hu h.2, fun h => hparen u hu h.2⟩

/-- Marks are made of the tokens on the two sides of a token that belongs to no other one. -/
lemma marks_append_cons {t : Token} (hcolon : t.kind ≠ .colon) (hparen : t.kind ≠ .leftParen)
    (hlabel : canLabel t.kind = false) (ts us : List Token) :
    marks (ts ++ t :: us) = marks ts ++ .single t :: marks us := by
  rw [marks_append (by simpa using hcolon) (by simpa using hparen), marks_cons hlabel]

lemma head?_marks (ts : List Token) : (marks ts).head?.map Mark.token = ts.head? := by
  fun_cases marks ts <;> rfl

/-- Without words and colons every token has a mark of its own. -/
lemma marks_eq_map {ts : List Token} (hts : ∀ t ∈ ts, t.kind ≠ .word ∧ t.kind ≠ .colon) :
    marks ts = ts.map .single := by
  fun_induction marks ts with
  | case1 => rfl
  | case2 t => rfl
  | case3 t u ts h ih => simp [(hts u (by simp)).2] at h
  | case4 t u ts h h' ih => simp [(hts t (by simp)).1] at h'
  | case5 t u ts h h' ih =>
    rw [ih fun v hv => hts v (List.mem_cons_of_mem _ hv)]
    rfl

namespace Source

variable {s : Source} {p q : Progress}

/-- Up to the first end of a script a run puts one mark after the other in its place, and it does
not come to the marks behind that. -/
lemma run_append_end {ms : List Mark} {last : Token} (hms : ∀ m ∈ ms, m.isEnd = false)
    (hlast : last.kind = .eof) (p : Progress) (rest : List Mark) :
    s.run p (ms ++ .single last :: rest) = ms.foldlM s.placeMark p >>= s.finish := by
  induction ms generalizing p with
  | nil => simp [run, hlast]
  | cons m ms ih =>
    have htail := ih fun n hn => hms n (List.mem_cons_of_mem _ hn)
    rw [List.cons_append, List.foldlM_cons, bind_assoc]
    cases m with
    | single t =>
      have ht : t.kind ≠ .eof := by simpa [Mark.isEnd] using hms _ List.mem_cons_self
      rw [run, if_neg ht]
      exact bind_congr htail
    | label t => exact bind_congr htail
    | call t => exact bind_congr htail

/-- The regions of a script that ends more than once are those up to its first end. -/
lemma regions_append_end_cons {ts rest : List Token} {first last : Token}
    (hts : ∀ t ∈ ts, t.kind ≠ .eof) (hfirst : first.kind = .eof)
    (hlast : (ts ++ first :: rest).getLast? = some last) (heof : last.kind = .eof) :
    s.regions (ts ++ first :: rest) = (marks ts).foldlM s.placeMark .start >>= s.finish := by
  rw [regions, hlast]
  simp only [heof, if_true, List.append_nil]
  rw [marks_append_cons (by simp [hfirst]) (by simp [hfirst]) (by simp [hfirst, canLabel])]
  exact run_append_end (isEnd_eq_false_of_mem_marks hts) hfirst .start _

/-- The regions of a script that ends with its only end token. -/
lemma regions_append_end {ts : List Token} {last : Token} (hts : ∀ t ∈ ts, t.kind ≠ .eof)
    (hlast : last.kind = .eof) :
    s.regions (ts ++ [last]) = (marks ts).foldlM s.placeMark .start >>= s.finish :=
  regions_append_end_cons hts hlast List.getLast?_concat hlast

/-- Regions are found where a run over all marks leaves no group open. -/
lemma regions_eq_ok_iff {ts : List Token} {last : Token} {regions : List Tree}
    (hts : ∀ t ∈ ts, t.kind ≠ .eof) (hlast : last.kind = .eof) :
    s.regions (ts ++ [last]) = .ok regions ↔
      ∃ q, (marks ts).foldlM s.placeMark .start = .ok q ∧ q.groups = [] ∧
        regions = q.endRegion.regions.reverse := by
  rw [regions_append_end hts hlast, Traced.bind_eq_ok_iff]
  refine exists_congr fun q => and_congr_right fun _ => ?_
  cases hgroups : q.groups with
  | nil => simp [finish, hgroups, eq_comm]
  | cons g gs => simp [finish, hgroups, complain]

end Source

/-! ### Siblings of the current list -/

namespace Progress

/-- Further siblings, the first of which begins at a place. -/
def put (p : Progress) (place : Location) (ts : List Tree) : Progress :=
  { p.touch place with siblings := ts.reverse ++ p.siblings }

@[simp] lemma siblings_touch (p : Progress) (place : Location) :
    (p.touch place).siblings = p.siblings := by
  unfold touch
  split <;> rfl

lemma touch_put (p : Progress) (place place' : Location) (ts : List Tree) :
    (p.put place ts).touch place' = p.put place ts := by
  obtain ⟨regions, groups, siblings⟩ := p
  cases groups with
  | nil => rfl
  | cons g gs => simp [put, touch]

lemma put_put (p : Progress) (place place' : Location) (ts us : List Tree) :
    (p.put place ts).put place' us = p.put place (ts ++ us) := by
  rw [put, touch_put]
  simp [put]

lemma push_eq_put (p : Progress) (t : Tree) : p.push t = p.put t.place [t] := rfl

/-- A group around siblings becomes one sibling. -/
lemma close?_put_openGroup (p : Progress) (opener : Token) {closer : Token} (name : String)
    {kind : TokenKind} (hkind : closer.kind = kind) (place : Location) (ts : List Tree) :
    ((p.openGroup opener name kind).put place ts).close? closer =
      some (p.put opener.place [.call opener.place name [listOf place ts.reverse]]) := by
  simp [close?, openGroup, put, touch, hkind]

end Progress

lemma exists_listOf_reverse (place : Location) (ts : List Tree) :
    ∃ q, listOf place ts.reverse = .call q Tree.listName ts := by
  unfold listOf
  rw [List.reverse_reverse]
  exact ⟨_, rfl⟩

end Grouping

end LineScript
