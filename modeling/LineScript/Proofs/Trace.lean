import LineScript.Trace
import Mathlib.Tactic.Common

/-!
# Results of computations with a record

A computation succeeds exactly if each of its parts does.
-/

namespace LineScript

namespace Traced

variable {α β γ ε : Type}

@[simp] lemma ok_bind (a : α) (f : α → Except ε β) : (Except.ok a >>= f) = f a := rfl

@[simp] lemma error_bind (e : ε) (f : α → Except ε β) : (Except.error e >>= f) = .error e := rfl

lemma bind_eq_ok_iff {x : Except ε α} {f : α → Except ε β} {b : β} :
    (x >>= f) = .ok b ↔ ∃ a, x = .ok a ∧ f a = .ok b := by
  cases x with
  | ok a => simp
  | error e => simp

lemma eq_ok_of_toOption {x : Except ε α} {a : α} (h : x.toOption = some a) : x = .ok a := by
  cases x with
  | ok b => exact congrArg Except.ok (Option.some.inj h)
  | error e => cases h

@[simp] lemma result_fail (e : Failure) : (fail e : Traced α).result = .error e := rfl

lemma result_bind_eq_ok_iff {x : Traced α} {f : α → Traced β} {b : β} :
    (x >>= f).result = .ok b ↔ ∃ a, x.result = .ok a ∧ (f a).result = .ok b := by
  rw [result_bind, bind_eq_ok_iff]

lemma result_bind_of_ok {x : Traced α} {a : α} (h : x.result = .ok a) (f : α → Traced β) :
    (x >>= f).result = (f a).result := by
  rw [result_bind, h, ok_bind]

lemma result_bind_of_error {x : Traced α} {e : Failure} (h : x.result = .error e)
    (f : α → Traced β) : (x >>= f).result = .error e := by
  rw [result_bind, h, error_bind]

lemma result_complain_ne_ok {c : Complaint} {p : Location} {a : α} :
    (complain c p : Traced α).result ≠ .ok a := by
  simp [Failure.complain]

/-! ### Computations in a row -/

lemma bind_of_pure (a : α) (f : α → Traced β) : (pure a >>= f) = f a := rfl

lemma bind_pure_eq (x : Traced α) : x >>= pure = x := by
  obtain ⟨steps, result⟩ := x
  cases result with
  | error e => rfl
  | ok a => simp [Bind.bind, Traced.bind]

lemma bind_bind (x : Traced α) (f : α → Traced β) (g : β → Traced γ) :
    (x >>= f) >>= g = x >>= fun a => f a >>= g := by
  obtain ⟨steps, result⟩ := x
  cases result with
  | error e => rfl
  | ok a => cases hf : (f a).result <;> simp [Bind.bind, Traced.bind, hf]

/-- What comes behind a computation matters for its results alone. -/
lemma bind_congr_of_ok {x : Traced α} {f g : α → Traced β}
    (h : ∀ a, x.result = .ok a → f a = g a) : x >>= f = x >>= g := by
  obtain ⟨steps, result⟩ := x
  cases result with
  | error e => rfl
  | ok a => simp [Bind.bind, Traced.bind, h a rfl]

end Traced

end LineScript
