import Mathlib.Tactic.Common
import ConicSaddle.Fault

/-!
# Checked computations

How a computation that ended without a fault is taken apart, and how one that cannot fault is put
together.

* `Checked.bind_eq_ok`, `Checked.map_eq_ok`: the parts of a computation with a result;
* `Checked.ok_bind`: a computation that goes on after a result;
* `Checked.pure_eq_ok`: the result of a computation that does nothing;
* `Checked.alike_of_map_eq`: two computations that cannot be told apart.
-/

namespace ConicSaddle.Checked

variable {β γ : Type}

@[simp] theorem ok_bind (a : β) (f : β → Checked γ) :
    ((Except.ok a : Checked β) >>= f) = f a := rfl

@[simp] theorem map_ok (f : β → γ) (a : β) : f <$> (Except.ok a : Checked β) = .ok (f a) := rfl

@[simp] theorem pure_eq_ok (a : β) : (pure a : Checked β) = .ok a := rfl

theorem bind_eq_ok {x : Checked β} {f : β → Checked γ} {r : γ} :
    (x >>= f) = .ok r ↔ ∃ a, x = .ok a ∧ f a = .ok r := by
  cases x with
  | error fault =>
    constructor
    · intro h
      cases h
    · rintro ⟨a, ha, -⟩
      cases ha
  | ok a =>
    constructor
    · intro h
      exact ⟨a, rfl, h⟩
    · rintro ⟨b, hb, h⟩
      cases hb
      exact h

theorem map_eq_ok {x : Checked β} {f : β → γ} {r : γ} :
    f <$> x = .ok r ↔ ∃ a, x = .ok a ∧ f a = r := by
  cases x with
  | error fault =>
    constructor
    · intro h
      cases h
    · rintro ⟨a, ha, -⟩
      cases ha
  | ok a =>
    constructor
    · intro h
      cases h
      exact ⟨a, rfl, rfl⟩
    · rintro ⟨b, hb, rfl⟩
      cases hb
      rfl

/-- Computations that show the same have faulted alike, or have results that show the same. -/
theorem alike_of_map_eq {δ : Type} {f : β → δ} {g : γ → δ} {x : Checked β} {y : Checked γ}
    (h : f <$> x = g <$> y) :
    (∃ fault, x = .error fault ∧ y = .error fault) ∨
      ∃ a b, x = .ok a ∧ y = .ok b ∧ f a = g b := by
  cases x with
  | error fault =>
    cases y with
    | error fault' => exact .inl ⟨fault, rfl, congrArg Except.error (Except.error.inj h).symm⟩
    | ok b => cases h
  | ok a =>
    cases y with
    | error fault' => cases h
    | ok b => exact .inr ⟨a, b, rfl, rfl, Except.ok.inj h⟩

end ConicSaddle.Checked
