import LineScript.Proofs.Trace
import LineScript.Proofs.Tree.Parts
import LineScript.Proofs.Tree.Unplaced
import LineScript.Token

/-!
# Moving trees to other places

A map of places moves every place in trees, tokens and diagnostics. What the compiler does with
trees never depends on their places, so that all of it commutes with such a map; here this is
shown of going on with a result.
-/

namespace LineScript

variable (φ : Location → Location) (μ : JoinMode → JoinMode)

/-! ### Trees -/

namespace Tree

mutual

/-- The tree with every place moved. -/
def relocate : Tree → Tree
  | .hole => .hole
  | .symbol p s f => .symbol (φ p) s f
  | .label p n => .label (φ p) n
  | .identifier p n => .identifier (φ p) n
  | .literal p v => .literal (φ p) v
  | .variable p n => .variable (φ p) n
  | .void p => .void (φ p)
  | .call p n ts => .call (φ p) n (relocateList ts)
  | .entry p l v => .entry (φ p) (relocate l) (relocate v)
  | .join p m ts => .join (φ p) m (relocateList ts)
  | .bracket p t => .bracket (φ p) (relocate t)
  | .brace p t => .brace (φ p) (relocate t)

/-- The trees with every place moved. -/
def relocateList : List Tree → List Tree
  | [] => []
  | t :: ts => relocate t :: relocateList ts

end

@[simp] lemma relocateList_eq_map (ts : List Tree) : relocateList φ ts = ts.map (relocate φ) := by
  induction ts with
  | nil => rfl
  | cons t ts ih => rw [relocateList, ih, List.map_cons]

@[simp] lemma relocate_call (p : Location) (n : String) (ts : List Tree) :
    (Tree.call p n ts).relocate φ = .call (φ p) n (ts.map (relocate φ)) := by
  rw [relocate, relocateList_eq_map]

@[simp] lemma relocate_join (p : Location) (m : JoinMode) (ts : List Tree) :
    (Tree.join p m ts).relocate φ = .join (φ p) m (ts.map (relocate φ)) := by
  rw [relocate, relocateList_eq_map]

mutual

/-- The tree with every place moved and every way to join exchanged. -/
def recast : Tree → Tree
  | .hole => .hole
  | .symbol p s f => .symbol (φ p) s f
  | .label p n => .label (φ p) n
  | .identifier p n => .identifier (φ p) n
  | .literal p v => .literal (φ p) v
  | .variable p n => .variable (φ p) n
  | .void p => .void (φ p)
  | .call p n ts => .call (φ p) n (recastList ts)
  | .entry p l v => .entry (φ p) (recast l) (recast v)
  | .join p m ts => .join (φ p) (μ m) (recastList ts)
  | .bracket p t => .bracket (φ p) (recast t)
  | .brace p t => .brace (φ p) (recast t)

/-- The trees with every place moved and every way to join exchanged. -/
def recastList : List Tree → List Tree
  | [] => []
  | t :: ts => recast t :: recastList ts

end

@[simp] lemma recastList_eq_map (ts : List Tree) : recastList φ μ ts = ts.map (recast φ μ) := by
  induction ts with
  | nil => rfl
  | cons t ts ih => rw [recastList, ih, List.map_cons]

@[simp] lemma recast_call (p : Location) (n : String) (ts : List Tree) :
    (Tree.call p n ts).recast φ μ = .call (φ p) n (ts.map (recast φ μ)) := by
  rw [recast, recastList_eq_map]

@[simp] lemma recast_join (p : Location) (m : JoinMode) (ts : List Tree) :
    (Tree.join p m ts).recast φ μ = .join (φ p) (μ m) (ts.map (recast φ μ)) := by
  rw [recast, recastList_eq_map]

lemma recast_id_right (t : Tree) : t.recast φ id = t.relocate φ := by
  induction t with
  | call p n ts ih => rw [recast_call, relocate_call, List.map_congr_left ih]
  | join p m ts ih => rw [recast_join, relocate_join, List.map_congr_left ih, id]
  | entry p l v hl hv => simp [recast, relocate, hl, hv]
  | bracket p t ih | brace p t ih => simp [recast, relocate, ih]
  | _ => rfl

lemma unplaced_eq_relocate (t : Tree) : t.unplaced = t.relocate fun _ => .unknown := by
  induction t with
  | call p n ts ih => rw [unplaced, unplacedList_eq_map, relocate_call, List.map_congr_left ih]
  | join p m ts ih => rw [unplaced, unplacedList_eq_map, relocate_join, List.map_congr_left ih]
  | entry p l v hl hv => simp [unplaced, relocate, hl, hv]
  | bracket p t ih | brace p t ih => simp [unplaced, relocate, ih]
  | _ => rfl

lemma unplaced_eq : unplaced = relocate fun _ => .unknown := funext unplaced_eq_relocate

/-- A tree stays as it is if every way to join in it does. -/
lemma recast_eq_self {μ : JoinMode → JoinMode} {t : Tree}
    (h : t.All fun u => ∀ p m ts, u = .join p m ts → μ m = m) : t.recast id μ = t := by
  have hchildren := (all_iff.mp h).2
  induction t with
  | call p n ts ih =>
    have hts : ∀ t ∈ ts, t.recast id μ = t := fun t ht =>
      ih t ht (hchildren t ht) (all_iff.mp (hchildren t ht)).2
    rw [recast_call, List.map_congr_left hts, List.map_id', id]
  | join p m ts ih =>
    have hts : ∀ t ∈ ts, t.recast id μ = t := fun t ht =>
      ih t ht (hchildren t ht) (all_iff.mp (hchildren t ht)).2
    rw [recast_join, List.map_congr_left hts, List.map_id', h.self p m ts rfl, id]
  | entry p l v ihl ihv =>
    have hl := hchildren l (by simp [children])
    have hv := hchildren v (by simp [children])
    simp [recast, ihl hl (all_iff.mp hl).2, ihv hv (all_iff.mp hv).2]
  | bracket p t ih | brace p t ih =>
    have ht := hchildren t (by simp [children])
    simp [recast, ih ht (all_iff.mp ht).2]
  | _ => rfl

lemma relocate_id (t : Tree) : t.relocate id = t := by
  rw [← recast_id_right]
  exact recast_eq_self fun _ _ _ _ _ _ => rfl

variable (t : Tree)

@[simp] lemma isOperand_recast : (t.recast φ μ).isOperand = t.isOperand := by
  cases t <;> rfl

@[simp] lemma isOperand_relocate : (t.relocate φ).isOperand = t.isOperand := by
  cases t <;> rfl

@[simp] lemma isSymbol_recast : (t.recast φ μ).isSymbol = t.isSymbol := by
  cases t <;> rfl

@[simp] lemma isLabel_relocate : (t.relocate φ).isLabel = t.isLabel := by
  cases t <;> rfl

variable {t}

lemma place_recast (h : t ≠ .hole) : (t.recast φ μ).place = φ t.place := by
  cases t <;> first | rfl | exact absurd rfl h

lemma place_relocate (h : t ≠ .hole) : (t.relocate φ).place = φ t.place := by
  cases t <;> first | rfl | exact absurd rfl h

lemma ne_hole_of_isOperand (h : t.isOperand = true) : t ≠ .hole := by
  rintro rfl
  cases h

end Tree

/-- The token with its place moved. -/
def Token.relocate (t : Token) : Token := { t with place := φ t.place }

/-! ### Failures and records -/

/-- The diagnostic with its place moved. -/
def Diagnostic.relocate (d : Diagnostic) : Diagnostic := { d with place := d.place.map φ }

/-- The failure with its place moved; a report stays as it is. -/
def Failure.relocate : Failure → Failure
  | .diagnostic d => .diagnostic (d.relocate φ)
  | .unresolvedCall name place => .unresolvedCall name (place.map φ)
  | .brokenInvariant message place => .brokenInvariant message (place.map φ)
  | f => f

/-- The failure without its place. Of a diagnostic only the complaint is left. -/
def Failure.unplaced : Failure → Failure
  | .diagnostic d => .diagnostic ⟨d.complaint, none, none⟩
  | .unresolvedCall name _ => .unresolvedCall name none
  | .brokenInvariant message _ => .brokenInvariant message none
  | f => f

/-- The second result is the first one at other places. A failure may be at any place. -/
inductive IsMoved {α β : Type} (move : α → β) : Except Failure α → Except Failure β → Prop where
  | ok (a : α) : IsMoved move (.ok a) (.ok (move a))
  | error {f f' : Failure} (h : f'.unplaced = f.unplaced) : IsMoved move (.error f) (.error f')

namespace IsMoved

variable {α α' β β' : Type} {move : α → α'} {move' : β → β'} {r : Except Failure α}
  {r' : Except Failure α'} {a : α} {a' : α'}

lemma ok_of_eq (h : a' = move a) : IsMoved move (.ok a) (.ok a') := h ▸ .ok a

lemma eq_ok (h : IsMoved move (.ok a) r') : r' = .ok (move a) := by
  cases h
  rfl

lemma bind {f : α → Except Failure β} {g : α' → Except Failure β'} (h : IsMoved move r r')
    (hf : ∀ a, r = .ok a → IsMoved move' (f a) (g (move a))) :
    IsMoved move' (r >>= f) (r' >>= g) := by
  cases h with
  | ok a => exact hf a rfl
  | error h => exact .error h

/-- Two results that are the same at other places. -/
lemma cases_of_both {q : Except Failure α} {r'' : Except Failure α'} (h : IsMoved move r r'')
    (h' : IsMoved move q r'') :
    (∃ a b, r = .ok a ∧ q = .ok b ∧ move b = move a) ∨
      ∃ f g, r = .error f ∧ q = .error g ∧ g.unplaced = f.unplaced := by
  cases h with
  | ok a =>
    cases q with
    | ok b => exact Or.inl ⟨a, b, rfl, rfl, (Except.ok.inj h'.eq_ok).symm⟩
    | error g => cases h'
  | error h =>
    cases h' with
    | error h' => exact Or.inr ⟨_, _, rfl, rfl, h'.symm.trans h⟩

end IsMoved

/-- The step with its place moved. -/
def Step.relocate : Step → Step
  | .unary spelling place => .unary spelling (φ place)
  | .binary tier spelling place => .binary tier spelling (φ place)
  | .assignment spelling place => .assignment spelling (φ place)
  | .implicitCall name place => .implicitCall name (φ place)
  | .parenList count place => .parenList count (φ place)
  | s => s

namespace Traced

variable {α α' β β' : Type}

/-- The computation with all places moved that are in its record, its failure, or, as `move` says,
in its result. -/
def relocate (move : α → α') (x : Traced α) : Traced α' :=
  ⟨x.steps.map (Step.relocate φ), (x.result.map move).mapError (Failure.relocate φ)⟩

@[simp] lemma relocate_pure (move : α → α') (a : α) :
    (pure a : Traced α).relocate φ move = pure (move a) := rfl

@[simp] lemma relocate_step (s : Step) : (step s).relocate φ id = step (s.relocate φ) := rfl

@[simp] lemma relocate_fail (move : α → α') (f : Failure) :
    (fail f : Traced α).relocate φ move = fail (f.relocate φ) := rfl

@[simp] lemma relocate_complain (move : α → α') (c : Complaint) (p : Location) :
    (complain c p : Traced α).relocate φ move = complain c (φ p) := rfl

lemma relocate_step_bind (move : β → β') (s : Step) (f : Unit → Traced β) :
    (step s >>= f).relocate φ move = step (s.relocate φ) >>= fun u => (f u).relocate φ move := rfl

lemma relocate_bind {move : α → α'} {move' : β → β'} {x : Traced α} {f : α → Traced β}
    {g : α' → Traced β'} (h : ∀ a, x.result = .ok a → (f a).relocate φ move' = g (move a)) :
    (x >>= f).relocate φ move' = x.relocate φ move >>= g := by
  obtain ⟨steps, result⟩ := x
  cases result with
  | error e => rfl
  | ok a =>
    have hsteps := congrArg Traced.steps (h a rfl)
    have hresult := congrArg Traced.result (h a rfl)
    show Traced.mk ((steps ++ (f a).steps).map _) _ =
      Traced.mk (steps.map _ ++ (g (move a)).steps) _
    rw [← hsteps, ← hresult, List.map_append]
    rfl

end Traced

end LineScript
