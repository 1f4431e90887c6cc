import LineScript.Proofs.Reduction.Grammar
import LineScript.Proofs.Trace

/-!
# Sweeps over chains

Once steps and prefix symbols have found their operands, a list that can be reduced consists of
chains: operands with one symbol between any two of them. On chains the sweep of a binary tier is
`Chain.collapse` and the sweep of assignments is `Chain.assigned`, neither of which can fail. The
lists to which they are applied are several chains one after the other, since operands may stand
next to each other.
-/

namespace LineScript

namespace Reduction

/-- A symbol between two operands. -/
structure Joint where
  place : Location
  spelling : String
  fixity : Fixity

/-- The symbol of a joint. -/
def Joint.symbol (j : Joint) : Tree := .symbol j.place j.spelling j.fixity

/-- An operand, and the operands joined to it. -/
structure Chain where
  head : Tree
  links : List (Joint × Tree)

namespace Chain

/-- The siblings of links. -/
def strung : List (Joint × Tree) → List Tree
  | [] => []
  | (j, t) :: links => j.symbol :: t :: strung links

/-- The siblings of a chain. -/
def siblings (c : Chain) : List Tree := c.head :: strung c.links

/-- The trees of a chain are operands. -/
structure IsSound (c : Chain) : Prop where
  head : c.head.isOperand = true
  links : ∀ x ∈ c.links, x.2.isOperand = true

/-- The operands that the symbols of a tier join, put together from left to right. -/
def collapseFrom (tier : Tier) (t : Tree) : List (Joint × Tree) → Chain
  | [] => ⟨t, []⟩
  | (j, u) :: links =>
    if tier.holds j.spelling then
      collapseFrom tier (.call t.place (Operator.operation j.spelling j.fixity) [t, u]) links
    else
      let c := collapseFrom tier u links
      ⟨t, (j, c.head) :: c.links⟩

/-- The chain that is left behind the sweep of a tier. -/
def collapse (tier : Tier) (c : Chain) : Chain := collapseFrom tier c.head c.links

/-- The chain that is left behind the sweeps of several tiers, the loosest of which comes first. -/
def collapseAll (tiers : List Tier) (c : Chain) : Chain := tiers.foldr collapse c

/-- The tree of an operand with assignments behind it. -/
def assignedFrom (t : Tree) : List (Joint × Tree) → Tree
  | [] => t
  | (j, u) :: links => assignment j.spelling t (assignedFrom u links)

/-- The tree of a chain of assignments. -/
def assigned (c : Chain) : Tree := assignedFrom c.head c.links

/-- The tree that all sweeps together make of a chain. -/
def tree (c : Chain) : Tree := (c.collapseAll Tier.all.reverse).assigned

/-! ### Soundness of the trees of a chain -/

lemma isSound_collapseFrom {tier : Tier} {t : Tree} {links : List (Joint × Tree)}
    (h : IsSound ⟨t, links⟩) : (collapseFrom tier t links).IsSound := by
  induction links generalizing t with
  | nil => exact h
  | cons x links ih =>
    obtain ⟨j, u⟩ := x
    have hlinks : ∀ x ∈ links, x.2.isOperand = true := fun x hx =>
      h.links x (List.mem_cons_of_mem _ hx)
    have hu : u.isOperand = true := h.links (j, u) List.mem_cons_self
    simp only [collapseFrom]
    split_ifs
    · exact ih ⟨rfl, hlinks⟩
    · have hc := ih (t := u) ⟨hu, hlinks⟩
      refine ⟨h.head, ?_⟩
      intro x hx
      rcases List.mem_cons.mp hx with rfl | hx
      · exact hc.head
      · exact hc.links x hx

lemma isSound_collapse {tier : Tier} {c : Chain} (h : c.IsSound) : (c.collapse tier).IsSound :=
  isSound_collapseFrom h

lemma isSound_collapseAll {tiers : List Tier} {c : Chain} (h : c.IsSound) :
    (c.collapseAll tiers).IsSound := by
  induction tiers with
  | nil => exact h
  | cons tier tiers ih => exact isSound_collapse ih

lemma isOperand_assignedFrom {t : Tree} {links : List (Joint × Tree)} (h : t.isOperand = true) :
    (assignedFrom t links).isOperand = true := by
  cases links with
  | nil => exact h
  | cons x links => rfl

lemma isOperand_tree {c : Chain} (h : c.IsSound) : c.tree.isOperand = true :=
  isOperand_assignedFrom (isSound_collapseAll h).head

/-! ### Joining two chains -/

lemma strung_append (links links' : List (Joint × Tree)) :
    strung (links ++ links') = strung links ++ strung links' := by
  induction links with
  | nil => rfl
  | cons x links ih => simp [strung, ih]

/-- Two chains with a joint between them. -/
def join (c : Chain) (j : Joint) (c' : Chain) : Chain :=
  ⟨c.head, c.links ++ (j, c'.head) :: c'.links⟩

lemma IsSound.join {c c' : Chain} (h : c.IsSound) (j : Joint) (h' : c'.IsSound) :
    (c.join j c').IsSound := by
  refine ⟨h.head, ?_⟩
  intro x hx
  rcases List.mem_append.mp hx with hx | hx
  · exact h.links x hx
  · rcases List.mem_cons.mp hx with rfl | hx
    · exact h'.head
    · exact h'.links x hx

/-- A joint of another tier separates what a sweep puts together. -/
lemma collapse_join_of_not_holds {tier : Tier} {j : Joint} (hj : tier.holds j.spelling = false)
    (c c' : Chain) : (c.join j c').collapse tier = (c.collapse tier).join j (c'.collapse tier) := by
  obtain ⟨t, links⟩ := c
  simp only [collapse, join]
  induction links generalizing t with
  | nil => simp [collapseFrom, hj]
  | cons x links ih =>
    obtain ⟨i, u⟩ := x
    simp only [List.cons_append, collapseFrom]
    split_ifs
    · exact ih _
    · simp [ih u]

/-- A joint of the tier takes what is put together before it as its left operand. -/
lemma collapse_join_of_holds {tier : Tier} {j : Joint} (hj : tier.holds j.spelling = true)
    {c : Chain} {a : Tree} (hc : c.collapse tier = ⟨a, []⟩) (b : Tree) :
    (c.join j ⟨b, []⟩).collapse tier =
      ⟨.call a.place (Operator.operation j.spelling j.fixity) [a, b], []⟩ := by
  obtain ⟨t, links⟩ := c
  simp only [collapse, join] at hc ⊢
  induction links generalizing t with
  | nil =>
    obtain rfl : t = a := by simpa [collapseFrom] using hc
    simp [collapseFrom, hj]
  | cons x links ih =>
    obtain ⟨i, u⟩ := x
    simp only [List.cons_append, collapseFrom] at hc ⊢
    split_ifs at hc ⊢
    · exact ih _ hc
    · simp at hc

lemma collapseAll_join {tiers : List Tier} {j : Joint}
    (hj : ∀ tier ∈ tiers, tier.holds j.spelling = false) (c c' : Chain) :
    collapseAll tiers (c.join j c') = (collapseAll tiers c).join j (collapseAll tiers c') := by
  induction tiers with
  | nil => rfl
  | cons tier tiers ih =>
    have htiers := ih fun tier' h => hj tier' (List.mem_cons_of_mem _ h)
    simp only [collapseAll, List.foldr_cons] at htiers ⊢
    rw [htiers, collapse_join_of_not_holds (hj tier List.mem_cons_self)]

end Chain

end Reduction

end LineScript
