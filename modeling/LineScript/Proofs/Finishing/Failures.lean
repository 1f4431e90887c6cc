import LineScript.Finishing
import LineScript.Proofs.Reduction.Rewriting
import LineScript.Proofs.Tree.Parts

/-!
# Failures of finishing

Lists and groups are refused for what is in them: every failure of finishing is about a tree that
stood in the list before the first sweep, or about a group. So whatever is known of these trees,
and of failures about them, is known of all failures (`Accounts`). Sweeps put nothing but operands
into a list, which are not refused.
-/

namespace LineScript

namespace Traced

variable {α β : Type} {P : α → Prop} {Q : β → Prop} {E : Failure → Prop}

/-- The result has one property, or the failure has another one. -/
def Ends (P : α → Prop) (E : Failure → Prop) (x : Traced α) : Prop :=
  match x.result with
  | .ok a => P a
  | .error f => E f

namespace Ends

lemma pure {a : α} (h : P a) : Ends P E (Pure.pure a) := h

lemma step (s : Step) : Ends (fun _ => True) E (Traced.step s) := trivial

lemma fail {f : Failure} (h : E f) : Ends P E (Traced.fail f) := h

lemma complain {c : Complaint} {p : Location} (h : E (.diagnostic (.of c p))) :
    Ends P E (Traced.complain c p) := h

lemma bind {x : Traced α} {f : α → Traced β} (hx : Ends P E x) (hf : ∀ a, P a → Ends Q E (f a)) :
    Ends Q E (x >>= f) := by
  obtain ⟨steps, result⟩ := x
  cases result with
  | ok a => exact hf a hx
  | error e => exact hx

lemma of_ok {x : Traced α} {a : α} (h : Ends P E x) (hx : x.result = .ok a) : P a := by
  unfold Ends at h
  rwa [hx] at h

lemma of_error {x : Traced α} {f : Failure} (h : Ends P E x) (hx : x.result = .error f) : E f := by
  unfold Ends at h
  rwa [hx] at h

end Ends

end Traced

namespace Reduction

open Traced LineScript.Tree

/-- Operands have the property `P`, and failures about other trees with the property `P` have the
property `E`. -/
structure Accounts (registry : Registry) (P : Tree → Prop) (E : Failure → Prop) : Prop where
  operand : ∀ t, t.isOperand = true → P t
  hole : P .hole → E .hole
  unknown : ∀ p s f, P (.symbol p s f) → Operator.isKnown s = false →
    E (.diagnostic (.of (.unknownSymbol s) p))
  symbol : ∀ p s f, P (.symbol p s f) → E (.diagnostic (.of (.misplacedSymbol s) p))
  compound : ∀ p s f, P (.symbol p s f) → (Operator.compound? s).isSome = true →
    E (.diagnostic (.of (.missingValue s) p))
  label : ∀ p n, P (.label p n) → E (.diagnostic (.of (.misplacedSymbol (n ++ ":")) p))
  identifier : ∀ p n, P (.identifier p n) → E (.diagnostic (.of (.misplacedIdentifier n) p))
  unresolved : ∀ p n, P (.identifier p n) → registry.lookup n = none → E (.unresolvedCall n p)

variable {d : Dialect} {registry : Registry} {P : Tree → Prop} {E : Failure → Prop}
  {place : Location} {t : Tree} {ts before : List Tree}

namespace Accounts

/-! ### Checks -/

lemma checkKnown (h : Accounts registry P E) (hts : ∀ t ∈ ts, P t) :
    Ends (fun _ => True) E (Reduction.checkKnown ts) := by
  fun_induction Reduction.checkKnown ts with
  | case1 => exact .pure trivial
  | case2 ts => exact .fail (h.hole (hts _ List.mem_cons_self))
  | case3 p s f ts hs ih => exact ih (List.forall_mem_cons.mp hts).2
  | case4 p s f ts hs =>
    exact .complain (h.unknown p s f (hts _ List.mem_cons_self) (by simpa using hs))
  | case5 t ts hhole hsymbol ih => exact ih (List.forall_mem_cons.mp hts).2

lemma checkOperand (h : Accounts registry P E) (ht : P t) :
    Ends (fun _ => True) E (Reduction.checkOperand t) := by
  cases t with
  | hole => exact .fail (h.hole ht)
  | symbol p s f => exact .complain (h.symbol p s f ht)
  | label p n => exact .complain (h.label p n ht)
  | identifier p n => exact .complain (h.identifier p n ht)
  | _ => exact .pure trivial

lemma checkConsumed (h : Accounts registry P E) (hts : ∀ t ∈ ts, P t) :
    Ends (fun _ => True) E (Reduction.checkConsumed ts) := by
  fun_induction Reduction.checkConsumed ts with
  | case1 => exact .pure trivial
  | case2 p s f ts => exact .complain (h.symbol p s f (hts _ List.mem_cons_self))
  | case3 t ts hsymbol ih => exact ih (List.forall_mem_cons.mp hts).2

/-! ### Sweeps -/

lemma postfixFrom (h : Accounts registry P E) (ht : P t) (hts : ∀ u ∈ ts, P u) :
    ∀ u ∈ Reduction.postfixFrom t ts, P u := by
  fun_induction Reduction.postfixFrom t ts with
  | case1 t => simpa using ht
  | case2 t p s f ts _ ih => exact ih (h.operand _ rfl) (List.forall_mem_cons.mp hts).2
  | case3 t p s f ts _ ih =>
    obtain ⟨hsymbol, hts⟩ := List.forall_mem_cons.mp hts
    exact List.forall_mem_cons.mpr ⟨ht, ih hsymbol hts⟩
  | case4 t u ts _ ih =>
    obtain ⟨hu, hts⟩ := List.forall_mem_cons.mp hts
    exact List.forall_mem_cons.mpr ⟨ht, ih hu hts⟩

lemma postfixSweep (h : Accounts registry P E) (hts : ∀ t ∈ ts, P t) :
    ∀ u ∈ Reduction.postfixSweep ts, P u := by
  cases ts with
  | nil => exact hts
  | cons t ts =>
    obtain ⟨ht, hts⟩ := List.forall_mem_cons.mp hts
    exact h.postfixFrom ht hts

lemma absorb (h : Accounts registry P E) (ht : P t) (hbefore : ∀ u ∈ before, P u) :
    Ends (fun us => ∀ u ∈ us, P u) E (Reduction.absorb t before) := by
  fun_induction Reduction.absorb t before with
  | case1 t p s f before _ ih =>
    refine (h.checkOperand ht).bind fun _ _ => (Ends.step _).bind fun _ _ => ?_
    exact ih (h.operand _ rfl) (List.forall_mem_cons.mp hbefore).2
  | case2 t p s f before _ => exact .pure (List.forall_mem_cons.mpr ⟨ht, hbefore⟩)
  | case3 t before => exact .pure (List.forall_mem_cons.mpr ⟨ht, hbefore⟩)

lemma prefixFrom (h : Accounts registry P E) (hbefore : ∀ u ∈ before, P u) (hts : ∀ u ∈ ts, P u) :
    Ends (fun us => ∀ u ∈ us, P u) E (Reduction.prefixFrom before ts) := by
  fun_induction Reduction.prefixFrom before ts with
  | case1 before => exact .pure fun t ht => hbefore t (List.mem_reverse.mp ht)
  | case2 before t ts _ ih =>
    obtain ⟨ht, hts⟩ := List.forall_mem_cons.mp hts
    exact ih (List.forall_mem_cons.mpr ⟨ht, hbefore⟩) hts
  | case3 before t ts _ ih =>
    obtain ⟨ht, hts⟩ := List.forall_mem_cons.mp hts
    exact (h.absorb ht hbefore).bind fun after hafter => ih after hafter hts

lemma binaryFrom (h : Accounts registry P E) (tier : Tier) (ht : P t) (hts : ∀ u ∈ ts, P u) :
    Ends (fun us => ∀ u ∈ us, P u) E (Reduction.binaryFrom tier t ts) := by
  fun_induction Reduction.binaryFrom tier t ts with
  | case1 t => exact .pure (by simpa using ht)
  | case2 t p s f _ => exact .complain (h.symbol p s f (hts _ List.mem_cons_self))
  | case3 t p s f _ right ts ih =>
    obtain ⟨hright, hts⟩ := List.forall_mem_cons.mp (List.forall_mem_cons.mp hts).2
    refine (h.checkOperand ht).bind fun _ _ => (h.checkOperand hright).bind fun _ _ => ?_
    exact (Ends.step _).bind fun _ _ => ih (h.operand _ rfl) hts
  | case4 t p s f ts _ ih =>
    obtain ⟨hsymbol, hts⟩ := List.forall_mem_cons.mp hts
    refine (ih hsymbol hts).bind fun us hus => ?_
    exact .pure (List.forall_mem_cons.mpr ⟨ht, hus⟩)
  | case5 t u ts _ ih =>
    obtain ⟨hu, hts⟩ := List.forall_mem_cons.mp hts
    refine (ih hu hts).bind fun us hus => ?_
    exact .pure (List.forall_mem_cons.mpr ⟨ht, hus⟩)

lemma binarySweep (h : Accounts registry P E) (tier : Tier) (hts : ∀ t ∈ ts, P t) :
    Ends (fun us => ∀ u ∈ us, P u) E (Reduction.binarySweep tier ts) := by
  cases ts with
  | nil => exact .pure hts
  | cons t ts =>
    obtain ⟨ht, hts⟩ := List.forall_mem_cons.mp hts
    exact h.binaryFrom tier ht hts

lemma foldlM_binarySweep (h : Accounts registry P E) (tiers : List Tier) (hts : ∀ t ∈ ts, P t) :
    Ends (fun us => ∀ u ∈ us, P u) E
      (tiers.foldlM (fun ts tier => Reduction.binarySweep tier ts) ts) := by
  induction tiers generalizing ts with
  | nil => exact .pure hts
  | cons tier tiers ih =>
    rw [List.foldlM_cons]
    exact (h.binarySweep tier hts).bind fun us hus => ih hus

lemma unassigned (h : Accounts registry P E) {p : Location} {s : String} {f : Fixity}
    (ht : P (.symbol p s f)) : E (.diagnostic (.of (Reduction.unassigned s) p)) := by
  unfold Reduction.unassigned
  split_ifs with hcompound
  · exact h.compound p s f ht hcompound
  · exact h.symbol p s f ht

lemma assign (h : Accounts registry P E) (ht : P t) (hts : ∀ u ∈ ts, P u) :
    Ends (fun us => ∀ u ∈ us, P u) E (Reduction.assign t ts) := by
  revert hts
  fun_cases Reduction.assign t ts with
  | case1 p s f _ => exact fun hts => .complain (h.unassigned (hts _ List.mem_cons_self))
  | case2 p s f _ right ts =>
    intro hts
    obtain ⟨hright, hts⟩ := List.forall_mem_cons.mp (List.forall_mem_cons.mp hts).2
    refine (h.checkOperand ht).bind fun _ _ => (h.checkOperand hright).bind fun _ _ => ?_
    refine (Ends.step _).bind fun _ _ => .pure ?_
    exact List.forall_mem_cons.mpr ⟨h.operand _ rfl, hts⟩
  | case3 => exact fun hts => .pure (List.forall_mem_cons.mpr ⟨ht, hts⟩)
  | case4 => exact fun hts => .pure (List.forall_mem_cons.mpr ⟨ht, hts⟩)

lemma assignmentSweep (h : Accounts registry P E) (hts : ∀ t ∈ ts, P t) :
    Ends (fun us => ∀ u ∈ us, P u) E (Reduction.assignmentSweep ts) := by
  induction ts with
  | nil => exact .pure hts
  | cons t ts ih =>
    obtain ⟨ht, hts⟩ := List.forall_mem_cons.mp hts
    exact (ih hts).bind fun us hus => h.assign ht hus

/-! ### Settling -/

lemma implicitCall (h : Accounts registry P E) {p : Location} {name : String}
    (ht : P (.identifier p name)) (ts : List Tree) :
    Ends P E (Reduction.implicitCall registry p name ts) := by
  unfold Reduction.implicitCall
  cases hlookup : registry.lookup name with
  | none => exact .fail (h.unresolved p name ht hlookup)
  | some descriptor => exact (Ends.step _).bind fun _ _ => .pure (h.operand _ rfl)

lemma joined (h : Accounts registry P E) (mode : JoinMode) (place : Location)
    (hts : ∀ t ∈ ts, P t) : Ends P E (Reduction.joined mode place ts) := by
  unfold Reduction.joined
  dsimp only
  split
  · next p name heq =>
    obtain ⟨t, ht, hname⟩ := List.exists_of_findSome?_eq_some heq
    have hidentifier : t = .identifier p name := by
      cases t <;> simp_all
    exact .complain (h.identifier p name (hidentifier ▸ hts t ht))
  · exact .pure (h.operand _ rfl)

lemma settle (h : Accounts d.registry P E) (hts : ∀ t ∈ ts, P t) :
    Ends P E (Reduction.settle d place ts) := by
  fun_induction Reduction.settle d place ts with
  | case1 place p name ts ih =>
    exact (ih (List.forall_mem_cons.mp hts).2).bind fun _ _ => .pure (h.operand _ rfl)
  | case2 place t => exact .pure (hts t List.mem_cons_self)
  | case3 place p name ts _ => exact h.implicitCall (hts _ List.mem_cons_self) ts
  | case4 place ts => exact h.joined d.mode place hts

/-- What a list is reduced to can be accounted for, and so can a failure. -/
theorem reduce (h : Accounts d.registry P E) (hts : ∀ t ∈ ts, P t) :
    Ends P E (Reduction.reduce d place ts) := by
  refine (h.checkKnown hts).bind fun _ _ => ?_
  refine (h.prefixFrom (by simp) (h.postfixSweep hts)).bind fun us hus => ?_
  refine (h.foldlM_binarySweep Tier.all hus).bind fun vs hvs => ?_
  refine (h.assignmentSweep hvs).bind fun ws hws => ?_
  exact (h.checkConsumed hws).bind fun _ _ => h.settle hws

end Accounts

end Reduction

namespace Tree

open Traced Reduction

/-- A bracket or brace with too much in it fails with the property `E`. -/
structure Crowds (E : Failure → Prop) (p : Location) (name : String) : Prop where
  bracket (hname : name = bracketName) (n : Int) : E (.diagnostic (.of (.crowdedGroup "[]" n) p))
  brace (hname : name = braceName) (n : Int) :
    E (.diagnostic (.of (.crowdedGroup "\x7b\x7d" n) p))

/-- The tree has the property `P`, and if it is a group that holds too much, this has the property
`E`. -/
def IsAccountable (P : Tree → Prop) (E : Failure → Prop) (t : Tree) : Prop :=
  P t ∧ ∀ p name children, t = .call p name children → Crowds E p name

variable {d : Dialect} {P : Tree → Prop} {E : Failure → Prop} {p : Location} {name : String}
  {t : Tree} {ts : List Tree}

lemma ends_soleContent {group : String} (h : Accounts d.registry P E) (hts : ∀ t ∈ ts, P t)
    (hcrowded : ∀ n, E (.diagnostic (.of (.crowdedGroup group n) p))) :
    Ends P E (soleContent p group ts) := by
  match ts with
  | [] => exact .pure (h.operand _ rfl)
  | [t] => exact .pure (hts t List.mem_cons_self)
  | _ :: _ :: _ => exact .complain (hcrowded _)

lemma ends_finishCall (h : Accounts d.registry P E) (hcrowds : Crowds E p name)
    (hts : ∀ t ∈ ts, P t) : Ends P E (finishCall d p name ts) := by
  unfold finishCall
  split_ifs with hlist hparen hbracket hbrace
  · exact (Ends.step _).bind fun _ _ => h.reduce hts
  · refine (Ends.step _).bind fun _ _ => ?_
    match ts with
    | [] => exact .pure (h.operand _ rfl)
    | [t] => exact .pure (hts t List.mem_cons_self)
    | t :: u :: ts => exact (Ends.step _).bind fun _ _ => h.reduce hts
  · refine (Ends.step _).bind fun _ _ => ?_
    refine (ends_soleContent h hts (hcrowds.bracket hbracket)).bind fun _ _ => ?_
    exact .pure (h.operand _ rfl)
  · refine (Ends.step _).bind fun _ _ => ?_
    refine (ends_soleContent h hts (hcrowds.brace hbrace)).bind fun _ _ => ?_
    exact .pure (h.operand _ rfl)
  · exact .pure (h.operand _ rfl)

lemma ends_finishList (hts : ∀ t ∈ ts, Ends P E (finish d t)) :
    Ends (fun us => ∀ u ∈ us, P u) E (finishList d ts) := by
  induction ts with
  | nil => exact .pure (by simp)
  | cons t ts ih =>
    refine (hts t List.mem_cons_self).bind fun u hu => ?_
    refine (ih fun v hv => hts v (List.mem_cons_of_mem _ hv)).bind fun us hus => ?_
    exact .pure (List.forall_mem_cons.mpr ⟨hu, hus⟩)

/-- What a tree is finished to can be accounted for, and so can a failure, if all its parts can. -/
theorem ends_finish (h : Accounts d.registry P E) (ht : t.All (IsAccountable P E)) :
    Ends P E (finish d t) := by
  induction t with
  | hole => exact .fail (h.hole ht.self.1)
  | call p name ts ih =>
    obtain ⟨hself, hts⟩ := all_iff.mp ht
    refine (ends_finishList fun u hu => ih u hu (hts u hu)).bind fun us hus => ?_
    exact ends_finishCall h (hself.2 p name ts rfl) hus
  | entry p l v ihl ihv =>
    exact (ihv (ht.child (by simp [children]))).bind fun _ _ => .pure (h.operand _ rfl)
  | join p m ts ih =>
    refine (ends_finishList fun u hu => ih u hu (ht.child hu)).bind fun us hus => ?_
    exact .pure (h.operand _ rfl)
  | bracket p t ih =>
    exact (ih (ht.child (by simp [children]))).bind fun _ _ => .pure (h.operand _ rfl)
  | brace p t ih =>
    exact (ih (ht.child (by simp [children]))).bind fun _ _ => .pure (h.operand _ rfl)
  | _ => exact .pure ht.self.1

end Tree

end LineScript
