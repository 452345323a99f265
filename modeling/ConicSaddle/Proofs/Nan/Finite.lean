import ConicSaddle.Proofs.Nan.Rules

/-!
# Rules for values that are finite

What refinement needs to know of values that are not finite: a finite value divided by one of them is
never above one.

* `FiniteRules`: the rule, with instances for the two binary floating point types;
* `Binary.div_of_not_finite`: the quotient is a NaN or a zero.
-/

namespace ConicSaddle

/-- The rule for values that are finite. -/
class FiniteRules (α : Type) [Scalar α] : Prop where
  isFinite_of_one_lt_div {x y : α} (hx : Scalar.isFinite x = true)
    (h : Scalar.lt 1 (x / y) = true) : Scalar.isFinite y = true

namespace Binary

open Float.Model Float.Model.UnpackedFloat

/-- A finite value divided by one that is not. -/
theorem div_of_not_finite (spec : Format) {u v : UnpackedFloat} (hu : u.isFinite = true)
    (hv : v.isFinite = false) :
    div spec u v = .notANumber ∨ ∃ sign, div spec u v = .zero sign := by
  cases v with
  | zero sign => cases hv
  | finite sign mantissa exponent pos => cases hv
  | notANumber => exact .inl (div_right u)
  | infinity sign =>
    cases u with
    | notANumber => cases hu
    | infinity sign' => cases hu
    | zero sign' => exact .inr ⟨_, rfl⟩
    | finite sign' mantissa exponent pos => exact .inr ⟨_, rfl⟩

end Binary

section Types

open Binary Float.Model

/-! Neither a NaN nor a zero is above one, also after it was packed. -/

theorem not_one_lt_float {u : UnpackedFloat} (h : u = .notANumber ∨ ∃ sign, u = .zero sign) :
    Scalar.lt 1 (⟨.pack u⟩ : Float) = false := by
  rcases h with rfl | ⟨sign, rfl⟩
  · decide +kernel
  · cases sign with
    | positive => decide +kernel
    | negative => decide +kernel

theorem not_one_lt_float32 {u : UnpackedFloat} (h : u = .notANumber ∨ ∃ sign, u = .zero sign) :
    Scalar.lt 1 (⟨.pack u⟩ : Float32) = false := by
  rcases h with rfl | ⟨sign, rfl⟩
  · decide +kernel
  · cases sign with
    | positive => decide +kernel
    | negative => decide +kernel

instance : FiniteRules Float where
  isFinite_of_one_lt_div {x y} hx h := by
    cases hy : Scalar.isFinite y with
    | true => rfl
    | false => cases h.symm.trans (not_one_lt_float (div_of_not_finite .binary64 hx hy))

instance : FiniteRules Float32 where
  isFinite_of_one_lt_div {x y} hx h := by
    cases hy : Scalar.isFinite y with
    | true => rfl
    | false => cases h.symm.trans (not_one_lt_float32 (div_of_not_finite .binary32 hx hy))

end Types

end ConicSaddle
