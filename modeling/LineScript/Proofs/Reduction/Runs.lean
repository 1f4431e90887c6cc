import LineScript.Proofs.Reduction.Leading

/-!
# The runs that trees stand for

Every tree that reduction makes stands for a run of neighbouring siblings, and it is placed where
the first of them is. A call that a symbol becomes stands for the runs of its operands with the
symbol between or beside them; what is left is cut into such runs, and an entry, a call by a bare
name or a join stands for all that it takes in.
-/

namespace LineScript

namespace Reduction

open Traced

/-! ### Runs -/

/-- The tree that the sweeps leave for a run of siblings. The operation of a compound assignment,
which has a copy of the target, stands for the same run as the assignment. -/
inductive Swept : List Tree → Tree → Prop where
  | sibling (t : Tree) : Swept [t] t
  | step {first t : Tree} {l : List Tree} {p : Location} {s : String} {f : Fixity}
      (hs : Operator.isPostfix s f = true) (h : Swept (first :: l) t) :
      Swept (first :: (l ++ [.symbol p s f])) (.call first.place (Operator.operation s f) [t])
  | sign {t : Tree} {l : List Tree} {p : Location} {s : String} {f : Fixity}
      (hs : Operator.isUnary s f = true) (h : Swept l t) :
      Swept (.symbol p s f :: l) (.call p (Operator.prefixOperation s f) [t])
  | binary {tier : Tier} {first a b : Tree} {l m : List Tree} {p : Location} {s : String}
      {f : Fixity} (hs : tier.holds s = true) (hl : Swept (first :: l) a) (hm : Swept m b) :
      Swept (first :: (l ++ .symbol p s f :: m))
        (.call first.place (Operator.operation s f) [a, b])
  | assign {first a b : Tree} {l m : List Tree} {p : Location} {s : String} {f : Fixity}
      (hs : Operator.isAssignment s = true) (hplain : Operator.compound? s = none)
      (hl : Swept (first :: l) a) (hm : Swept m b) :
      Swept (first :: (l ++ .symbol p s f :: m)) (.call first.place Operator.assign [a, b])
  | compound {operation : String} {first a b : Tree} {l m : List Tree} {p : Location} {s : String}
      {f : Fixity} (hs : Operator.compound? s = some operation) (hl : Swept (first :: l) a)
      (hm : Swept m b) : Swept (first :: (l ++ .symbol p s f :: m))
        (.call first.place Operator.assign [a, .call first.place operation [a, b]])

/-- The siblings are the runs of the trees, one run after the other. -/
inductive SweptList : List Tree → List Tree → Prop where
  | nil : SweptList [] []
  | cons {run rest us : List Tree} {t : Tree} (h : Swept run t) (hrest : SweptList rest us) :
      SweptList (run ++ rest) (t :: us)

/-- One tree for a run: the only one that the sweeps leave, or a join of several. -/
inductive Gathered (mode : JoinMode) : List Tree → Tree → Prop where
  | one {run : List Tree} {t : Tree} (h : Swept run t) : Gathered mode run t
  | several {first : Tree} {rest us : List Tree} (hlength : 2 ≤ us.length)
      (h : SweptList (first :: rest) us) :
      Gathered mode (first :: rest) (.join first.place mode us)

/-- The tree that a run is reduced to. What stands for no sibling at all is at the given place,
which behind a label is that of the label. -/
inductive StandsFor (d : Dialect) : Location → List Tree → Tree → Prop where
  | nothing (place : Location) : StandsFor d place [] (.join place d.mode [])
  | gathered {place : Location} {run : List Tree} {t : Tree} (h : Gathered d.mode run t) :
      StandsFor d place run t
  | call {place p : Location} {name : String} {descriptor : Descriptor} {run : List Tree}
      {argument : Tree} (hname : d.registry.lookup name = some descriptor)
      (h : Gathered .string run argument) :
      StandsFor d place (.identifier p name :: run) (.call p descriptor.name [argument])
  | entry {place p : Location} {name : String} {run : List Tree} {value : Tree}
      (h : StandsFor d p run value) :
      StandsFor d place (.label p name :: run) (.entry p (.label p name) value)

variable {d : Dialect} {mode : JoinMode} {place : Location} {ts us vs run redex : List Tree}
  {t u : Tree}

/-! ### Where they begin -/

/-- A run is not empty, and its tree is placed where it begins. -/
lemma Swept.exists_cons (h : Swept run t) :
    ∃ first rest, run = first :: rest ∧ t.place = first.place := by
  cases h <;> exact ⟨_, _, rfl, rfl⟩

lemma Gathered.exists_cons (h : Gathered mode run t) :
    ∃ first rest, run = first :: rest ∧ t.place = first.place := by
  cases h with
  | one h => exact h.exists_cons
  | several => exact ⟨_, _, rfl, rfl⟩

lemma StandsFor.place_eq (h : StandsFor d place run t) :
    ∀ first ∈ run.head?, t.place = first.place := by
  intro first hfirst
  cases h with
  | nothing => cases hfirst
  | gathered h =>
    obtain ⟨first', rest, rfl, hplace⟩ := h.exists_cons
    obtain rfl := Option.some.inj hfirst
    exact hplace
  | call | entry =>
    obtain rfl := Option.some.inj hfirst
    rfl

/-! ### Sweeping -/

/-- Only calls are made. -/
lemma Swept.eq_singleton (h : Swept run t) (ht : t.isOperand = false) : run = [t] := by
  cases h with
  | sibling => rfl
  | _ => cases ht

lemma SweptList.refl (ts : List Tree) : SweptList ts ts := by
  induction ts with
  | nil => exact .nil
  | cons t ts ih => exact .cons (.sibling t) ih

lemma SweptList.append (h : SweptList ts us) {ts' us' : List Tree} (h' : SweptList ts' us') :
    SweptList (ts ++ ts') (us ++ us') := by
  induction h with
  | nil => exact h'
  | cons h hrest ih =>
    rw [List.append_assoc]
    exact .cons h ih

lemma SweptList.exists_append (h : SweptList ts (us ++ vs)) :
    ∃ ts₁ ts₂, ts = ts₁ ++ ts₂ ∧ SweptList ts₁ us ∧ SweptList ts₂ vs := by
  induction us generalizing ts with
  | nil => exact ⟨[], ts, rfl, .nil, h⟩
  | cons u us ih =>
    cases h with
    | @cons run rest _ _ h hrest =>
      obtain ⟨ts₁, ts₂, rfl, h₁, h₂⟩ := ih hrest
      exact ⟨run ++ ts₁, ts₂, by rw [List.append_assoc], .cons h h₁, h₂⟩

lemma SweptList.exists_of_cons (h : SweptList ts (t :: us)) :
    ∃ run rest, ts = run ++ rest ∧ Swept run t ∧ SweptList rest us := by
  cases h with
  | cons h hrest => exact ⟨_, _, rfl, h, hrest⟩

lemma SweptList.swept (h : SweptList ts [t]) : Swept ts t := by
  obtain ⟨run, rest, rfl, hrun, hrest⟩ := h.exists_of_cons
  cases hrest
  rwa [List.append_nil]

/-- What is no operand stands for itself. -/
lemma SweptList.exists_of_cons_of_not_isOperand (h : SweptList ts (t :: us))
    (ht : t.isOperand = false) : ∃ rest, ts = t :: rest ∧ SweptList rest us := by
  obtain ⟨run, rest, rfl, hrun, hrest⟩ := h.exists_of_cons
  obtain rfl := hrun.eq_singleton ht
  exact ⟨rest, rfl, hrest⟩

lemma Swept.assignment {first a b : Tree} {l m : List Tree} {p : Location} {s : String} {f : Fixity}
    (hs : Operator.isAssignment s = true) (hl : Swept (first :: l) a) (hm : Swept m b) :
    Swept (first :: (l ++ .symbol p s f :: m)) (assignment s a b) := by
  obtain ⟨_, _, heq, hplace⟩ := hl.exists_cons
  obtain rfl := (List.cons.inj heq).1
  unfold Reduction.assignment
  rw [hplace]
  cases hcompound : Operator.compound? s with
  | none => exact .assign hs hcompound hl hm
  | some operation => exact .compound hcompound hl hm

/-- The call that a symbol becomes stands for the runs that come together in it. -/
lemma Collapses.swept (h : Collapses redex t) (hts : SweptList ts redex) : Swept ts t := by
  cases h with
  | step hs ha =>
    obtain ⟨run, rest, rfl, ha, hrest⟩ := hts.exists_of_cons
    obtain ⟨rest, rfl, ⟨⟩⟩ := hrest.exists_of_cons_of_not_isOperand rfl
    obtain ⟨first, l, rfl, hplace⟩ := ha.exists_cons
    rw [hplace]
    exact .step hs ha
  | sign hs ha =>
    obtain ⟨rest, rfl, hrest⟩ := hts.exists_of_cons_of_not_isOperand rfl
    exact .sign hs hrest.swept
  | binary hs =>
    obtain ⟨run, rest, rfl, ha, hrest⟩ := hts.exists_of_cons
    obtain ⟨rest, rfl, hb⟩ := hrest.exists_of_cons_of_not_isOperand rfl
    obtain ⟨first, l, rfl, hplace⟩ := ha.exists_cons
    rw [hplace]
    exact .binary hs ha hb.swept
  | assign hs =>
    obtain ⟨run, rest, rfl, ha, hrest⟩ := hts.exists_of_cons
    obtain ⟨rest, rfl, hb⟩ := hrest.exists_of_cons_of_not_isOperand rfl
    obtain ⟨first, l, rfl, -⟩ := ha.exists_cons
    exact .assignment hs ha hb.swept

/-- However far a list is rewritten, it consists of the runs of what is left. -/
lemma sweptList_of_rewrites (h : Rewrites ts us) : SweptList ts us := by
  refine h.preserves (motive := SweptList ts) (.refl ts) ?_
  intro l r redex t hcollapse hts
  obtain ⟨ts₁, ts₂, rfl, hl, hrest⟩ := hts.exists_append
  obtain ⟨ts₂, ts₃, rfl, hredex, hr⟩ := hrest.exists_append
  exact hl.append (.cons (hcollapse.swept hredex) hr)

/-! ### Settling -/

lemma SweptList.exists_cons (h : SweptList ts (u :: us)) :
    ∃ first rest, ts = first :: rest ∧ u.place = first.place := by
  obtain ⟨run, rest, rfl, hrun, -⟩ := h.exists_of_cons
  obtain ⟨first, l, rfl, hplace⟩ := hrun.exists_cons
  exact ⟨first, l ++ rest, rfl, hplace⟩

lemma SweptList.gathered_join (h : SweptList ts us) (hlength : 2 ≤ us.length) (mode : JoinMode)
    (place : Location) :
    Gathered mode ts (.join ((us.head?.map Tree.place).getD place) mode us) := by
  obtain ⟨u, us, rfl⟩ := List.exists_cons_of_length_pos (by omega : 0 < us.length)
  obtain ⟨first, rest, rfl, hplace⟩ := h.exists_cons
  rw [List.head?_cons, Option.map_some, Option.getD_some, hplace]
  exact .several hlength h

lemma SweptList.gathered_bareArgument (h : SweptList ts us) (hus : us ≠ []) :
    Gathered .string ts (bareArgument us) := by
  match us, hus with
  | [u], _ => exact .one h.swept
  | u :: v :: us, _ => exact h.gathered_join (by simp) .string .unknown

lemma SweptList.standsFor (hts : SweptList ts us) (h : (settle d place us).result = .ok t) :
    StandsFor d place ts t := by
  fun_induction settle d place us generalizing ts t with
  | case1 place p name us ih =>
    obtain ⟨v, hv, h⟩ := result_bind_eq_ok_iff.mp h
    obtain rfl := Except.ok.inj h
    obtain ⟨rest, rfl, hrest⟩ := hts.exists_of_cons_of_not_isOperand rfl
    exact .entry (ih hrest hv)
  | case2 place u hu =>
    obtain rfl := Except.ok.inj h
    exact .gathered (.one hts.swept)
  | case3 place p name us hus =>
    obtain ⟨descriptor, hname, rfl⟩ := result_implicitCall_eq_ok h
    obtain ⟨rest, rfl, hrest⟩ := hts.exists_of_cons_of_not_isOperand rfl
    refine .call hname (hrest.gathered_bareArgument ?_)
    rintro rfl
    exact hus rfl
  | case4 place us hlabel hsingle hidentifier =>
    obtain ⟨-, rfl⟩ := result_joined_eq_ok h
    rcases us with _ | ⟨u, _ | ⟨v, us⟩⟩
    · cases hts
      exact .nothing place
    · exact absurd rfl (hsingle u)
    · exact .gathered (hts.gathered_join (by simp) d.mode place)

/-- The tree of a list stands for the list, and so do the trees that it is made of for runs of it:
each is placed where the first sibling of its run is. An empty list is joined at the place of the
label before it, or at the given one. -/
theorem reduce_places_runs (h : (reduce d place ts).result = .ok t) :
    StandsFor d place ts t ∧ ∀ first ∈ ts.head?, t.place = first.place := by
  obtain ⟨-, us, hus, ht⟩ := result_reduce_iff.mp h
  have hstands := (sweptList_of_rewrites (rewrites_sweeps hus).1).standsFor ht
  exact ⟨hstands, hstands.place_eq⟩

/-- In `k: msg @a += -@b @c` the assignment and its sum stand for the run from `@a` to `@b`, and the
text that is joined for `msg` begins with them. -/
theorem reduce_places_name_behind_label :
    let place (column : Int) : Location := ⟨"f.ms", 1, column⟩
    let a : Tree := .variable (place 8) "a"
    let b : Tree := .variable (place 15) "b"
    let c : Tree := .variable (place 18) "c"
    let ts : List Tree := [.label (place 1) "k", .identifier (place 4) "msg", a,
      .symbol (place 11) "+=" .between, .symbol (place 14) "-" .between, b, c]
    let sum : Tree := .call (place 8) "add" [a, .call (place 14) "neg" [b]]
    let argument : Tree := .join (place 8) .string [.call (place 8) "assign" [a, sum], c]
    let t : Tree := .entry (place 1) (.label (place 1) "k") (.call (place 4) "msg" [argument])
    (reduce ⟨.builtin, .list⟩ .unknown ts).result = .ok t ∧
    StandsFor ⟨.builtin, .list⟩ .unknown ts t ∧ ∀ first ∈ ts.head?, t.place = first.place := by
  intro place a b c ts sum argument t
  have hreduce : (reduce ⟨.builtin, .list⟩ .unknown ts).result = .ok t := rfl
  exact ⟨hreduce, reduce_places_runs hreduce⟩

end Reduction

end LineScript
