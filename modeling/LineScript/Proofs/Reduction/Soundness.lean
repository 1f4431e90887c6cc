import LineScript.Proofs.Reduction.Grammar
import LineScript.Proofs.Trace

/-!
# Only phrases are reduced

Whatever a sweep leaves behind stands for consecutive pieces of the list it was given: a symbol
for itself, an operand for a phrase. `Pieces` says so, and that a phrase directly behind an
operand begins with no sign. Every sweep keeps it, so that a list from which all symbols have
vanished was split into phrases.
-/

namespace LineScript

namespace Reduction

open Traced

/-! ### Making phrases longer -/

lemma IsUnit.step {l : List Tree} {u : Tree} (h : IsUnit l) (hu : u.isPostfixSymbol = true) :
    IsUnit (l ++ [u]) := by
  obtain ⟨signs, t, steps, rfl, hsigns, ht, hsteps⟩ := h
  refine ⟨signs, t, steps ++ [u], by simp, hsigns, ht, ?_⟩
  intro v hv
  rcases List.mem_append.mp hv with hv | hv
  · exact hsteps v hv
  · obtain rfl := List.mem_singleton.mp hv
    exact hu

lemma IsUnit.sign {l : List Tree} {u : Tree} (h : IsUnit l) (hu : u.isPrefixSymbol = true) :
    IsUnit (u :: l) := by
  obtain ⟨signs, t, steps, rfl, hsigns, ht, hsteps⟩ := h
  refine ⟨u :: signs, t, steps, rfl, ?_, ht, hsteps⟩
  intro v hv
  rcases List.mem_cons.mp hv with rfl | hv
  · exact hu
  · exact hsigns v hv

lemma IsPhrase.operand {t : Tree} (ht : t.isOperand = true) : IsPhrase [t] :=
  .unit ⟨[], t, [], rfl, by simp, ht, by simp⟩

lemma IsPhrase.step {l : List Tree} {u : Tree} (h : IsPhrase l) (hu : u.isPostfixSymbol = true) :
    IsPhrase (l ++ [u]) := by
  induction h with
  | unit h => exact .unit (h.step hu)
  | joined hl hj hm ih =>
    rw [List.append_assoc, List.cons_append]
    exact .joined hl hj ih

lemma IsPhrase.sign {l : List Tree} {u : Tree} (h : IsPhrase l) (hu : u.isPrefixSymbol = true) :
    IsPhrase (u :: l) := by
  cases h with
  | unit h => exact .unit (h.sign hu)
  | joined hl hj hm => exact .joined (hl.sign hu) hj hm

lemma IsPhrase.join {l m : List Tree} {j : Tree} (h : IsPhrase l) (hj : j.isJointSymbol = true)
    (hm : IsPhrase m) : IsPhrase (l ++ j :: m) := by
  induction h with
  | unit h => exact .joined h hj hm
  | joined hl hi hn ih =>
    rw [List.append_assoc, List.cons_append]
    exact .joined hl hi ih

lemma IsPhrase.ne_nil {l : List Tree} (h : IsPhrase l) : l ≠ [] := by
  cases h with
  | unit h =>
    obtain ⟨signs, t, steps, rfl, -⟩ := h
    simp
  | joined => simp

lemma IsPhrase.beginsWithSign_append {l : List Tree} (h : IsPhrase l) (m : List Tree) :
    beginsWithSign (l ++ m) = beginsWithSign l := by
  cases l with
  | nil => exact absurd rfl h.ne_nil
  | cons => rfl

lemma beginsWithSign_singleton {t : Tree} (h : t.isOperand = true) :
    beginsWithSign [t] = false := by
  cases t <;> first | rfl | simp at h

/-! ### Pieces -/

/-- The second list is what has become of the first: symbols stand for themselves, operands for
phrases. The first flag says that a phrase behind a symbol begins with no sign, the second one that
a phrase at the beginning does not. -/
inductive Pieces (strict : Bool) : Bool → List Tree → List Tree → Prop where
  | nil {b : Bool} : Pieces strict b [] []
  | symbol {b : Bool} {p : Location} {s : String} {f : Fixity} {l ts : List Tree}
      (h : Pieces strict strict l ts) : Pieces strict b (.symbol p s f :: l) (.symbol p s f :: ts)
  | operand {b : Bool} {t : Tree} {l m ts : List Tree} (hl : IsPhrase l) (ht : t.isOperand = true)
      (hsign : b = true → beginsWithSign l = false) (h : Pieces strict true m ts) :
      Pieces strict b (l ++ m) (t :: ts)

/-- When no symbol is left the list has been split into phrases. -/
lemma Pieces.exists_split {strict b : Bool} {l ts : List Tree} (h : Pieces strict b l ts)
    (hts : ∀ t ∈ ts, t.isSymbol = false) :
    ∃ phrases : List (List Tree), phrases.flatten = l ∧ (∀ m ∈ phrases, IsPhrase m) ∧
      (∀ m ∈ phrases.tail, beginsWithSign m = false) ∧
      (b = true → ∀ m ∈ phrases, beginsWithSign m = false) := by
  induction h with
  | nil => exact ⟨[], rfl, by simp, by simp, by simp⟩
  | symbol => exact absurd (hts _ List.mem_cons_self) (by simp [Tree.isSymbol])
  | @operand b t l m ts hl ht hsign h ih =>
    obtain ⟨phrases, rfl, hphrases, -, htail⟩ := ih fun u hu => hts u (List.mem_cons_of_mem _ hu)
    refine ⟨l :: phrases, rfl, ?_, htail rfl, ?_⟩
    · intro n hn
      rcases List.mem_cons.mp hn with rfl | hn
      · exact hl
      · exact hphrases n hn
    · intro hb n hn
      rcases List.mem_cons.mp hn with rfl | hn
      · exact hsign hb
      · exact htail rfl n hn

/-! ### The postfix sweep -/

lemma pieces_postfixFrom {rest : List Tree}
    (hrest : ∀ t ∈ rest, t.isOperand = true ∨ t.isSymbol = true) :
    (∀ t l, t.isOperand = true → IsPhrase l → beginsWithSign l = false →
      Pieces true true (l ++ rest) (postfixFrom t rest)) ∧
    ∀ p s f, Pieces true true (.symbol p s f :: rest) (postfixFrom (.symbol p s f) rest) := by
  induction rest with
  | nil =>
    constructor
    · intro t l ht hl hsign
      exact .operand hl ht (fun _ => hsign) .nil
    · intro p s f
      exact .symbol .nil
  | cons u rest ih =>
    obtain ⟨hoperand, hsymbol⟩ := ih fun t ht => hrest t (List.mem_cons_of_mem _ ht)
    rcases hrest u List.mem_cons_self with hu | hu
    · have hphrase := hoperand u [u] hu (.operand hu) (beginsWithSign_singleton hu)
      have hfrom : ∀ t, postfixFrom t (u :: rest) = t :: postfixFrom u rest := by
        intro t
        cases u <;> first | rfl | simp at hu
      constructor
      · intro t l ht hl hsign
        rw [hfrom]
        exact .operand hl ht (fun _ => hsign) hphrase
      · intro p s f
        rw [hfrom]
        exact .symbol hphrase
    · cases u with
      | symbol p s f =>
        constructor
        · intro t l ht hl hsign
          simp only [postfixFrom, ht, Bool.and_true]
          split_ifs with hs
          · have hlonger : IsPhrase (l ++ [.symbol p s f]) := hl.step hs
            have hbegins : beginsWithSign (l ++ [.symbol p s f]) = false := by
              rw [hl.beginsWithSign_append, hsign]
            have hstep := hoperand (.call t.place (Operator.operation s f) [t]) _ rfl hlonger
              hbegins
            rwa [List.append_assoc] at hstep
          · exact .operand hl ht (fun _ => hsign) (hsymbol p s f)
        · intro p' s' f'
          simp only [postfixFrom, Tree.isOperand_symbol, Bool.and_false, Bool.false_eq_true,
            if_false]
          exact .symbol (hsymbol p s f)
      | _ => simp [Tree.isSymbol] at hu

lemma pieces_postfixSweep {ts : List Tree}
    (hts : ∀ t ∈ ts, t.isOperand = true ∨ t.isSymbol = true) :
    Pieces true true ts (postfixSweep ts) := by
  cases ts with
  | nil => exact .nil
  | cons t ts =>
    obtain ⟨hoperand, hsymbol⟩ := pieces_postfixFrom fun u hu => hts u (List.mem_cons_of_mem _ hu)
    rcases hts t List.mem_cons_self with ht | ht
    · exact hoperand t [t] ht (.operand ht) (beginsWithSign_singleton ht)
    · cases t with
      | symbol p s f => exact hsymbol p s f
      | _ => simp [Tree.isSymbol] at ht

/-! ### The prefix sweep -/

/-- The trees passed so far, the nearest first, as pieces of what has been read. -/
inductive Stacked : List Tree → List Tree → Prop where
  | nil : Stacked [] []
  | symbol {p : Location} {s : String} {f : Fixity} {l before : List Tree} (h : Stacked l before) :
      Stacked (l ++ [.symbol p s f]) (.symbol p s f :: before)
  | operand {t : Tree} {l m before : List Tree} (h : Stacked l before) (hm : IsPhrase m)
      (ht : t.isOperand = true)
      (hsign : before.head?.any Tree.isOperand = true → beginsWithSign m = false) :
      Stacked (l ++ m) (t :: before)

lemma Stacked.pieces {l before m ts : List Tree} (h : Stacked l before)
    (hm : Pieces false (before.head?.any Tree.isOperand) m ts) :
    Pieces false false (l ++ m) (before.reverse ++ ts) := by
  induction h generalizing m ts with
  | nil => exact hm
  | symbol h ih => simpa using ih (.symbol hm)
  | operand h hm' ht hsign ih =>
    have htop : Pieces false true m ts := by simpa [ht] using hm
    simpa using ih (.operand hm' ht hsign htop)

/-- A prefix symbol that takes an operand makes the phrase of this operand longer. -/
lemma Stacked.absorb {l before before' m : List Tree} {t : Tree} (h : Stacked l before)
    (hm : IsPhrase m) (ht : t.isOperand = true)
    (hsign : before.head?.any Tree.isOperand = true → beginsWithSign m = false)
    (hresult : (Reduction.absorb t before).result = .ok before') : Stacked (l ++ m) before' := by
  induction h generalizing t m with
  | nil =>
    obtain rfl : [t] = before' := by simpa [Reduction.absorb] using hresult
    exact .operand .nil hm ht hsign
  | @symbol p s f l before h ih =>
    simp only [Reduction.absorb] at hresult
    split_ifs at hresult with hopens
    · obtain ⟨-, -, hresult⟩ := result_bind_eq_ok_iff.mp hresult
      obtain ⟨-, -, hresult⟩ := result_bind_eq_ok_iff.mp hresult
      simp only [isPrefixAfter, Bool.and_eq_true, Bool.not_eq_true', Bool.and_eq_false_imp]
        at hopens
      have hlonger : IsPhrase (.symbol p s f :: m) := hm.sign hopens.1
      rw [List.append_assoc, List.singleton_append]
      refine ih hlonger rfl ?_ hresult
      -- a sign directly behind an operand opens nothing, so the longer phrase begins with none
      intro hhead
      by_contra hbegins
      have hsigns : Operator.isSign s = true := by
        simpa [beginsWithSign, Tree.isSignSymbol] using hbegins
      rw [hopens.2 hsigns] at hhead
      exact Bool.false_ne_true hhead
    · obtain rfl : t :: .symbol p s f :: before = before' := by simpa using hresult
      exact .operand h.symbol hm ht hsign
  | @operand u l n before h hn hu hsign' ih =>
    have hpushed : Reduction.absorb t (u :: before) = pure (t :: u :: before) := by
      cases u <;> first | rfl | simp at hu
    rw [hpushed] at hresult
    obtain rfl : t :: u :: before = before' := by simpa using hresult
    exact .operand (.operand h hn hu hsign') hm ht hsign

lemma pieces_prefixFrom {l before m us vs : List Tree} (h : Stacked l before) {b : Bool}
    (hm : Pieces true b m us) (hb : b = true)
    (hresult : (prefixFrom before us).result = .ok vs) : Pieces false false (l ++ m) vs := by
  induction hm generalizing l before with
  | nil =>
    obtain rfl : before.reverse = vs := by simpa [prefixFrom] using hresult
    simpa using h.pieces .nil
  | @symbol b p s f m ts hm ih =>
    simp only [prefixFrom, Tree.isSymbol, if_true] at hresult
    simpa using ih h.symbol rfl hresult
  | @operand b t m n ts hm ht hsign hn ih =>
    simp only [prefixFrom, Tree.isSymbol_eq_false_of_isOperand ht, Bool.false_eq_true, if_false]
      at hresult
    obtain ⟨before', habsorb, hresult⟩ := result_bind_eq_ok_iff.mp hresult
    rw [← List.append_assoc]
    exact ih (h.absorb hm ht (fun _ => hsign hb) habsorb) rfl hresult

lemma pieces_prefixSweep {ts vs : List Tree}
    (hts : ∀ t ∈ ts, t.isOperand = true ∨ t.isSymbol = true)
    (hresult : (prefixSweep (postfixSweep ts)).result = .ok vs) : Pieces false false ts vs :=
  pieces_prefixFrom .nil (pieces_postfixSweep hts) rfl hresult

/-! ### Binary tiers and assignments -/

lemma isOperand_of_result_checkOperand {t : Tree} (h : (checkOperand t).result = .ok ()) :
    t.isOperand = true := by
  cases t <;> first | rfl | simp [checkOperand, Failure.complain] at h

/-- The operands beside a symbol and the symbol itself are one piece afterwards. -/
lemma Pieces.join {b : Bool} {p : Location} {s : String} {f : Fixity} {t u v : Tree}
    {l ts : List Tree} (h : Pieces false b l (t :: .symbol p s f :: u :: ts))
    (hs : Operator.isJoint s = true) (ht : t.isOperand = true) (hu : u.isOperand = true)
    (hv : v.isOperand = true) : Pieces false b l (v :: ts) := by
  cases h with
  | symbol => simp at ht
  | operand hl _ hsign h =>
    cases h with
    | operand _ hsymbol => simp at hsymbol
    | symbol h =>
      cases h with
      | symbol => simp at hu
      | @operand _ _ m n _ hm _ _ h =>
        rw [← List.cons_append, ← List.append_assoc]
        refine .operand (hl.join hs hm) hv ?_ h
        intro hb
        rw [hl.beginsWithSign_append, hsign hb]

/-- What follows the first tree may be replaced by anything that stands for the same pieces. -/
lemma Pieces.congr_tail {b : Bool} {t : Tree} {l ts vs : List Tree}
    (h : Pieces false b l (t :: ts)) (hts : ∀ b m, Pieces false b m ts → Pieces false b m vs) :
    Pieces false b l (t :: vs) := by
  cases h with
  | symbol h => exact .symbol (hts _ _ h)
  | operand hl ht hsign h => exact .operand hl ht hsign (hts _ _ h)

lemma pieces_binaryFrom {tier : Tier} {b : Bool} {l ts vs : List Tree} {t : Tree}
    (h : Pieces false b l (t :: ts)) (hresult : (binaryFrom tier t ts).result = .ok vs) :
    Pieces false b l vs := by
  fun_induction binaryFrom tier t ts generalizing b l vs with
  | case1 t =>
    obtain rfl : [t] = vs := by simpa using hresult
    exact h
  | case2 => exact absurd hresult result_complain_ne_ok
  | case3 t p s f hs u ts ih =>
    obtain ⟨⟨⟩, ht, hresult⟩ := result_bind_eq_ok_iff.mp hresult
    obtain ⟨⟨⟩, hu, hresult⟩ := result_bind_eq_ok_iff.mp hresult
    obtain ⟨⟨⟩, -, hresult⟩ := result_bind_eq_ok_iff.mp hresult
    exact ih (h.join (Operator.isJoint_of_holds hs) (isOperand_of_result_checkOperand ht)
      (isOperand_of_result_checkOperand hu) rfl) hresult
  | case4 t p s f ts hs ih =>
    obtain ⟨vs', hvs, hresult⟩ := result_bind_eq_ok_iff.mp hresult
    obtain rfl : t :: vs' = vs := by simpa using hresult
    exact h.congr_tail fun _ _ hts => ih hts hvs
  | case5 t u ts hu ih =>
    obtain ⟨vs', hvs, hresult⟩ := result_bind_eq_ok_iff.mp hresult
    obtain rfl : t :: vs' = vs := by simpa using hresult
    exact h.congr_tail fun _ _ hts => ih hts hvs

lemma pieces_binarySweep {tier : Tier} {l ts vs : List Tree} (h : Pieces false false l ts)
    (hresult : (binarySweep tier ts).result = .ok vs) : Pieces false false l vs := by
  cases ts with
  | nil =>
    obtain rfl : [] = vs := by simpa [binarySweep] using hresult
    exact h
  | cons t ts => exact pieces_binaryFrom h hresult

lemma pieces_foldlM_binarySweep {tiers : List Tier} {l ts vs : List Tree}
    (h : Pieces false false l ts)
    (hresult : (tiers.foldlM (fun ts tier => binarySweep tier ts) ts).result = .ok vs) :
    Pieces false false l vs := by
  induction tiers generalizing ts with
  | nil =>
    obtain rfl : ts = vs := by simpa using hresult
    exact h
  | cons tier tiers ih =>
    rw [List.foldlM_cons] at hresult
    obtain ⟨us, hus, hresult⟩ := result_bind_eq_ok_iff.mp hresult
    exact ih (pieces_binarySweep h hus) hresult

lemma pieces_assign {b : Bool} {l ts vs : List Tree} {t : Tree} (h : Pieces false b l (t :: ts))
    (hresult : (assign t ts).result = .ok vs) : Pieces false b l vs := by
  cases ts with
  | nil =>
    obtain rfl : [t] = vs := by simpa [assign] using hresult
    exact h
  | cons u ts =>
    cases u with
    | symbol p s f =>
      simp only [assign] at hresult
      split_ifs at hresult with hs
      · cases ts with
        | nil => exact absurd hresult result_complain_ne_ok
        | cons u ts =>
          obtain ⟨⟨⟩, ht, hresult⟩ := result_bind_eq_ok_iff.mp hresult
          obtain ⟨⟨⟩, hu, hresult⟩ := result_bind_eq_ok_iff.mp hresult
          obtain ⟨⟨⟩, -, hresult⟩ := result_bind_eq_ok_iff.mp hresult
          obtain rfl : assignment s t u :: ts = vs := by simpa using hresult
          exact h.join (Operator.isJoint_of_isAssignment hs) (isOperand_of_result_checkOperand ht)
            (isOperand_of_result_checkOperand hu) rfl
      · obtain rfl : t :: .symbol p s f :: ts = vs := by simpa using hresult
        exact h
    | _ =>
      simp only [assign, result_pure, Except.ok.injEq] at hresult
      exact hresult ▸ h

lemma pieces_assignmentSweep {b : Bool} {l ts vs : List Tree} (h : Pieces false b l ts)
    (hresult : (assignmentSweep ts).result = .ok vs) : Pieces false b l vs := by
  induction ts generalizing b l vs with
  | nil =>
    obtain rfl : [] = vs := by simpa [assignmentSweep] using hresult
    exact h
  | cons t ts ih =>
    obtain ⟨us, hus, hresult⟩ := result_bind_eq_ok_iff.mp hresult
    exact pieces_assign (h.congr_tail fun _ _ hts => ih hts hus) hresult

/-! ### The whole reduction -/

lemma isSymbol_eq_false_of_result_checkConsumed {ts : List Tree}
    (h : (checkConsumed ts).result = .ok ()) : ∀ t ∈ ts, t.isSymbol = false := by
  induction ts with
  | nil => simp
  | cons t ts ih =>
    intro u hu
    cases t with
    | symbol => exact absurd h result_complain_ne_ok
    | _ =>
      rcases List.mem_cons.mp hu with rfl | hu
      · rfl
      · exact ih h u hu

/-- A list of operands and symbols that is reduced consists of phrases. -/
theorem exists_isSplit {d : Dialect} {place : Location} {ts : List Tree} {t : Tree}
    (hts : ∀ t ∈ ts, t.isOperand = true ∨ t.isSymbol = true)
    (h : (reduce d place ts).result = .ok t) : ∃ phrases, IsSplit ts phrases := by
  obtain ⟨⟨⟩, -, h⟩ := result_bind_eq_ok_iff.mp h
  obtain ⟨us, hus, h⟩ := result_bind_eq_ok_iff.mp h
  obtain ⟨vs, hvs, h⟩ := result_bind_eq_ok_iff.mp h
  obtain ⟨ws, hws, h⟩ := result_bind_eq_ok_iff.mp h
  obtain ⟨⟨⟩, hconsumed, -⟩ := result_bind_eq_ok_iff.mp h
  have hpieces : Pieces false false ts ws :=
    pieces_assignmentSweep (pieces_foldlM_binarySweep (pieces_prefixSweep hts hus) hvs) hws
  obtain ⟨phrases, hflatten, hphrases, hunsigned, -⟩ :=
    hpieces.exists_split (isSymbol_eq_false_of_result_checkConsumed hconsumed)
  exact ⟨phrases, hflatten, hphrases, hunsigned⟩

end Reduction

end LineScript
