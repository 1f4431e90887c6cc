import LineScript.Proofs.Reduction.Chain

/-!
# Sweeps over several chains

The sweep of a tier collapses every chain of a list by itself, and the sweep of assignments turns
every chain whose joints are assignments into its tree.
-/

namespace LineScript

namespace Reduction

open Traced

lemma result_checkOperand {t : Tree} (h : t.isOperand = true) :
    (checkOperand t).result = .ok () := by
  cases t <;> simp_all [checkOperand]

/-- The list ends here, or an operand follows. -/
def StartsFresh (ts : List Tree) : Prop := ∀ t ∈ ts.head?, t.isOperand = true

/-- The siblings of several chains. -/
def siblingsOf (cs : List Chain) : List Tree := cs.flatMap Chain.siblings

lemma startsFresh_siblingsOf {cs : List Chain} (h : ∀ c ∈ cs, c.IsSound) :
    StartsFresh (siblingsOf cs) := by
  intro t ht
  cases cs with
  | nil => simp [siblingsOf] at ht
  | cons c cs =>
    obtain rfl : c.head = t := by simpa [siblingsOf, Chain.siblings] using ht
    exact (h c List.mem_cons_self).head

/-! ### Binary tiers -/

lemma binaryFrom_of_not_isSymbol {tier : Tier} {t u : Tree} {ts : List Tree}
    (hu : u.isSymbol = false) :
    binaryFrom tier t (u :: ts) = do return t :: (← binaryFrom tier u ts) := by
  cases u <;> first | rfl | simp [Tree.isSymbol] at hu

lemma binaryFrom_of_not_holds {tier : Tier} {s : String} (hs : ¬tier.holds s = true) (t : Tree)
    (p : Location) (f : Fixity) (ts : List Tree) : binaryFrom tier t (.symbol p s f :: ts) =
      (do return t :: (← binaryFrom tier (.symbol p s f) ts)) := by
  cases ts <;> simp [binaryFrom, hs]

/-- The sweep of a tier is done with a chain before it comes to the next one. -/
lemma result_binaryFrom_strung {tier : Tier} {t : Tree} {links : List (Joint × Tree)}
    (h : Chain.IsSound ⟨t, links⟩) {rest swept : List Tree} (hrest : StartsFresh rest)
    (hswept : (binarySweep tier rest).result = .ok swept) :
    (binaryFrom tier t (Chain.strung links ++ rest)).result =
      .ok ((Chain.collapseFrom tier t links).siblings ++ swept) := by
  induction links generalizing t with
  | nil =>
    cases rest with
    | nil =>
      obtain rfl : [] = swept := by simpa [binarySweep] using hswept
      rfl
    | cons u rest =>
      have hu : u.isSymbol = false := Tree.isSymbol_eq_false_of_isOperand (hrest u rfl)
      simp only [binarySweep] at hswept
      simp only [Chain.strung, List.nil_append, binaryFrom_of_not_isSymbol hu,
        result_bind_of_ok hswept, result_pure]
      rfl
  | cons x links ih =>
    obtain ⟨j, u⟩ := x
    have hu : u.isOperand = true := h.links (j, u) List.mem_cons_self
    have hlinks : ∀ x ∈ links, x.2.isOperand = true := fun x hx =>
      h.links x (List.mem_cons_of_mem _ hx)
    simp only [Chain.strung, Joint.symbol, List.cons_append, binaryFrom, Chain.collapseFrom]
    split_ifs
    · rw [result_bind_of_ok (result_checkOperand h.head),
        result_bind_of_ok (result_checkOperand hu), result_bind_of_ok (result_step _)]
      exact ih ⟨rfl, hlinks⟩
    · rw [binaryFrom_of_not_isSymbol (Tree.isSymbol_eq_false_of_isOperand hu)]
      simp [ih ⟨hu, hlinks⟩, Chain.siblings, Chain.strung, Joint.symbol]

lemma result_binarySweep {tier : Tier} {cs : List Chain} (h : ∀ c ∈ cs, c.IsSound) :
    (binarySweep tier (siblingsOf cs)).result =
      .ok (siblingsOf (cs.map (Chain.collapse tier))) := by
  induction cs with
  | nil => rfl
  | cons c cs ih =>
    have hcs : ∀ c ∈ cs, c.IsSound := fun c hc => h c (List.mem_cons_of_mem _ hc)
    exact result_binaryFrom_strung (h c List.mem_cons_self) (startsFresh_siblingsOf hcs) (ih hcs)

lemma result_foldlM_binarySweep {cs : List Chain} (h : ∀ c ∈ cs, c.IsSound) (tiers : List Tier) :
    (tiers.foldlM (fun ts tier => binarySweep tier ts) (siblingsOf cs)).result =
      .ok (siblingsOf (cs.map (Chain.collapseAll tiers.reverse))) := by
  induction tiers generalizing cs with
  | nil => exact congrArg (Except.ok ∘ siblingsOf) (List.map_id cs).symm
  | cons tier tiers ih =>
    have hcs : ∀ c ∈ cs.map (Chain.collapse tier), c.IsSound := by
      intro c hc
      obtain ⟨b, hb, rfl⟩ := List.mem_map.mp hc
      exact Chain.isSound_collapse (h b hb)
    rw [List.foldlM_cons, result_bind_of_ok (result_binarySweep h), ih hcs, List.map_map]
    have hcollapse : Chain.collapseAll tiers.reverse ∘ Chain.collapse tier =
        Chain.collapseAll (tier :: tiers).reverse := by
      funext c
      simp [Chain.collapseAll]
    rw [hcollapse]

lemma result_binarySweeps {cs : List Chain} (h : ∀ c ∈ cs, c.IsSound) :
    (binarySweeps (siblingsOf cs)).result =
      .ok (siblingsOf (cs.map (Chain.collapseAll Tier.all.reverse))) :=
  result_foldlM_binarySweep h Tier.all

/-! ### Assignments -/

/-- The joints of a chain are assignments. -/
def Chain.IsAssignment (c : Chain) : Prop :=
  ∀ x ∈ c.links, Operator.isAssignment x.1.spelling = true

lemma assign_of_startsFresh {t : Tree} {ts : List Tree} (h : StartsFresh ts) :
    assign t ts = pure (t :: ts) := by
  cases ts with
  | nil => rfl
  | cons u ts =>
    have hu : u.isOperand = true := h u rfl
    cases u <;> first | rfl | simp at hu

lemma result_assignmentSweep_strung {t : Tree} {links : List (Joint × Tree)}
    (h : Chain.IsSound ⟨t, links⟩) (hassign : Chain.IsAssignment ⟨t, links⟩)
    {rest swept : List Tree} (hfresh : StartsFresh swept)
    (hswept : (assignmentSweep rest).result = .ok swept) :
    (assignmentSweep (t :: (Chain.strung links ++ rest))).result =
      .ok (Chain.assignedFrom t links :: swept) := by
  induction links generalizing t with
  | nil =>
    simp only [Chain.strung, List.nil_append, assignmentSweep]
    rw [result_bind_of_ok hswept, assign_of_startsFresh hfresh]
    rfl
  | cons x links ih =>
    obtain ⟨j, u⟩ := x
    have hu : u.isOperand = true := h.links (j, u) List.mem_cons_self
    have hj : Operator.isAssignment j.spelling = true := hassign (j, u) List.mem_cons_self
    have hlinks : ∀ x ∈ links, x.2.isOperand = true := fun x hx =>
      h.links x (List.mem_cons_of_mem _ hx)
    have htail := ih ⟨hu, hlinks⟩ fun x hx => hassign x (List.mem_cons_of_mem _ hx)
    have hvalue : (Chain.assignedFrom u links).isOperand = true :=
      Chain.isOperand_assignedFrom hu
    -- the symbol is passed first, with the value already complete behind it
    have hsymbol : (assignmentSweep (j.symbol :: u :: (Chain.strung links ++ rest))).result =
        .ok (j.symbol :: Chain.assignedFrom u links :: swept) := by
      rw [assignmentSweep, result_bind_of_ok htail]
      rw [assign_of_startsFresh (fun v hv => by simpa [← Option.some.inj hv] using hvalue)]
      rfl
    simp only [Chain.strung, List.cons_append]
    rw [assignmentSweep, result_bind_of_ok hsymbol]
    simp only [Joint.symbol, assign, hj, if_true]
    rw [result_bind_of_ok (result_checkOperand h.head),
      result_bind_of_ok (result_checkOperand hvalue), result_bind_of_ok (result_step _)]
    rfl

lemma result_assignmentSweep {cs : List Chain} (h : ∀ c ∈ cs, c.IsSound)
    (hassign : ∀ c ∈ cs, c.IsAssignment) :
    (assignmentSweep (siblingsOf cs)).result = .ok (cs.map Chain.assigned) := by
  induction cs with
  | nil => rfl
  | cons c cs ih =>
    have hcs : ∀ c ∈ cs, c.IsSound := fun c hc => h c (List.mem_cons_of_mem _ hc)
    have hfresh : StartsFresh (cs.map Chain.assigned) := by
      intro t ht
      cases cs with
      | nil => simp at ht
      | cons c' cs =>
        obtain rfl : c'.assigned = t := by simpa using ht
        exact Chain.isOperand_assignedFrom (hcs c' List.mem_cons_self).head
    exact result_assignmentSweep_strung (h c List.mem_cons_self) (hassign c List.mem_cons_self)
      hfresh (ih hcs fun c hc => hassign c (List.mem_cons_of_mem _ hc))

end Reduction

end LineScript
