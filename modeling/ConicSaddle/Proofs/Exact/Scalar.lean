import Mathlib.Analysis.Real.Sqrt
import Mathlib.LinearAlgebra.Matrix.Defs
import ConicSaddle.Vec.Basic

/-!
# Exact arithmetic

The real numbers as scalars: comparisons decide the order of the reals, no value is a NaN and every
value is finite.  What is proved of the algorithms over `ℝ` holds without rounding.

* the instance, with `√2` and `1 / √2` as the two constants;
* the operations that a class of scalars names, each read as an operation of the reals;
* `RealMatrix n`: square matrices over the reals, with the library's own product.
-/

/-- A square matrix of real numbers. -/
abbrev RealMatrix (n : ℕ) : Type := Matrix (Fin n) (Fin n) ℝ

namespace ConicSaddle

/-- The real numbers, where nothing is rounded. -/
noncomputable instance : Scalar ℝ where
  lt x y := decide (x < y)
  le x y := decide (x ≤ y)
  same x y := decide (x = y)
  abs x := |x|
  sqrt := Real.sqrt
  isNaN _ := false
  isFinite _ := true
  ofNat n := n
  rootTwo := Real.sqrt 2
  invRootTwo := 1 / Real.sqrt 2

namespace Exact

@[simp] theorem lt_eq (x y : ℝ) : Scalar.lt x y = decide (x < y) := rfl
@[simp] theorem le_eq (x y : ℝ) : Scalar.le x y = decide (x ≤ y) := rfl
@[simp] theorem abs_eq (x : ℝ) : Scalar.abs x = |x| := rfl
@[simp] theorem sqrt_eq (x : ℝ) : Scalar.sqrt x = Real.sqrt x := rfl
@[simp] theorem isNaN_eq (x : ℝ) : Scalar.isNaN x = false := rfl
@[simp] theorem isFinite_eq (x : ℝ) : Scalar.isFinite x = true := rfl
@[simp] theorem ofNat_eq (n : ℕ) : (Scalar.ofNat n : ℝ) = n := rfl
@[simp] theorem isZero_eq (x : ℝ) : Scalar.isZero x = decide (x = 0) := rfl
@[simp] theorem recip_eq (x : ℝ) : Scalar.recip x = 1 / x := rfl

theorem isFinite_array (x : Array ℝ) : Vec.isFinite x = true :=
  Array.all_eq_true.mpr fun _ _ => rfl

@[simp] theorem larger_eq (x y : ℝ) : Scalar.larger x y = max x y := by
  simp only [Scalar.larger, isNaN_eq, lt_eq, decide_eq_true_eq, Bool.false_eq_true, if_false]
  split
  · next h => exact (max_eq_right h.le).symm
  · next h => exact (max_eq_left (not_lt.mp h)).symm

/-- The two constants are a square root of two and its reciprocal. -/
theorem rootTwo_mul_rootTwo : (Scalar.rootTwo : ℝ) * Scalar.rootTwo = 2 :=
  Real.mul_self_sqrt zero_le_two

theorem rootTwo_mul_invRootTwo : (Scalar.rootTwo : ℝ) * Scalar.invRootTwo = 1 :=
  mul_one_div_cancel (Real.sqrt_ne_zero'.mpr zero_lt_two)

end Exact

end ConicSaddle
