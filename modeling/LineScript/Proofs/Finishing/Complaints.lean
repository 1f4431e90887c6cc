import LineScript.Proofs.Finishing.Cases
import LineScript.Proofs.Finishing.Failures
import LineScript.Proofs.Token.Reading

/-!
# Finishing fails with complaints only

A region of a script is finished to a tree, or there is a diagnostic about the script: nothing is
missing where a tree is needed, every symbol stands for an operation, and every function name is
known to the registry that it was read with (`delivers_finish_region`).
-/

namespace LineScript

/-- The complaints about lists and groups; none of them is about the spelling of a symbol. -/
def Complaint.IsOfFinishing : Complaint → Prop
  | .misplacedSymbol _ | .missingValue _ | .misplacedIdentifier _ | .crowdedGroup _ _ => True
  | _ => False

/-- A diagnostic about a list or a group at some place. -/
def Failure.IsOfFinishing (f : Failure) : Prop :=
  ∃ c p, f = .diagnostic (.of c p) ∧ c.IsOfFinishing

namespace Traced

variable {α : Type} {P : α → Prop} {x : Traced α}

/-- The result has a property, or there is a diagnostic about a list or a group at some place. -/
def Delivers (P : α → Prop) (x : Traced α) : Prop :=
  Ends P Failure.IsOfFinishing x

lemma Delivers.eq_of {f : Failure} (h : Delivers P x) (hx : x.result = .error f) :
    ∃ c p, f = .diagnostic (.of c p) ∧ c.IsOfFinishing :=
  h.of_error hx

lemma Delivers.cases (h : Delivers P x) : (∃ a, x.result = .ok a ∧ P a) ∨
    ∃ d, x.result = .error (.diagnostic d) ∧ d.complaint.IsOfFinishing := by
  cases hresult : x.result with
  | ok a => exact Or.inl ⟨a, rfl, h.of_ok hresult⟩
  | error f =>
    obtain ⟨c, p, rfl, hc⟩ := h.eq_of hresult
    exact Or.inr ⟨.of c p, rfl, hc⟩

end Traced

namespace Tree

open Traced Reduction

variable {registry : Registry} {d : Dialect} {t : Tree} {source : List Token}

/-- A tree that may stand in a list: none is missing, and symbols and names are known. -/
def IsUsable (registry : Registry) : Tree → Prop
  | .hole => False
  | .symbol _ spelling _ => Operator.isKnown spelling = true
  | .identifier _ name => ∃ descriptor, registry.lookup name = some descriptor
  | _ => True

/-- What is wrong with usable trees is wrong with the script. -/
lemma accounts_isUsable (registry : Registry) :
    Accounts registry (IsUsable registry) Failure.IsOfFinishing where
  operand t ht := by
    cases t with
    | hole | symbol | identifier => cases ht
    | _ => trivial
  hole h := absurd h id
  unknown p s f h hs := absurd h (by simp [IsUsable, hs])
  symbol p s _ _ := ⟨.misplacedSymbol s, p, rfl, trivial⟩
  compound p s _ _ _ := ⟨.missingValue s, p, rfl, trivial⟩
  label p n _ := ⟨.misplacedSymbol (n ++ ":"), p, rfl, trivial⟩
  identifier p n _ := ⟨.misplacedIdentifier n, p, rfl, trivial⟩
  unresolved p n h hnone := by
    obtain ⟨descriptor, hlookup⟩ := h
    rw [hnone] at hlookup
    cases hlookup

lemma crowds_isOfFinishing (p : Location) (name : String) :
    Crowds Failure.IsOfFinishing p name :=
  ⟨fun _ n => ⟨.crowdedGroup "[]" n, p, rfl, trivial⟩,
    fun _ n => ⟨.crowdedGroup "\x7b\x7d" n, p, rfl, trivial⟩⟩

/-- The symbols among tokens stand for operations. -/
def KnowsSymbols (source : List Token) : Prop :=
  ∀ t ∈ source, t.kind = .symbol → Operator.isKnown t.name = true

lemma isUsable_of_bears (hsource : KnowsSymbols source)
    (h : Grouping.Bears registry source t) : t.IsUsable registry := by
  rcases h.cases with ⟨p, n, rfl⟩ | ⟨u, hu, hkind, f, rfl⟩ | ⟨p, n, hcallable, rfl⟩ | ⟨p, v, rfl⟩ |
    ⟨p, n, rfl⟩
  · trivial
  · exact hsource u hu hkind
  · obtain ⟨descriptor, hlookup, -⟩ := Option.any_eq_true _ _ |>.mp hcallable
    exact ⟨descriptor, hlookup⟩
  · trivial
  · trivial

/-- A region of a source is finished to a tree, or there is a diagnostic, if it is finished with
the registry that it was read with. -/
theorem delivers_finish_region {s : Grouping.Source} {source file : String} {tokens : List Token}
    {regions : List Tree} {region : Tree} (hregistry : d.registry = s.registry)
    (htokens : LineScript.tokens source file = .ok tokens)
    (hregions : s.regions tokens = .ok regions) (hregion : region ∈ regions) :
    Delivers (IsUsable d.registry) (finish d region) := by
  have hreads := tokens_eq_ok_iff.mp htokens
  obtain ⟨ts, last, rfl, hlast, heof⟩ := hreads.exists_last
  have hshape := Grouping.isRegion_of_mem_regions hlast heof hregions region hregion
  have hsource : KnowsSymbols (ts ++ [last]) := fun t ht hkind => hreads.isKnown_name ht hkind
  have hcrowds := crowds_isOfFinishing
  refine ends_finish (accounts_isUsable d.registry) (hshape.all ?_ ?_)
  · exact fun p name ts => ⟨trivial, fun _ _ _ _ => hcrowds _ _⟩
  · intro t ht
    rw [← hregistry] at ht
    refine all_iff.mpr ⟨⟨isUsable_of_bears hsource ht, fun _ _ _ _ => hcrowds _ _⟩, ?_⟩
    simp [ht.children_eq_nil]

end Tree

end LineScript
