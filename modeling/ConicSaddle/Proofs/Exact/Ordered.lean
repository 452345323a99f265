import Mathlib.Algebra.BigOperators.Fin
import Mathlib.Data.Finset.Fold
import ConicSaddle.Proofs.Exact.Scalar
import ConicSaddle.Vec.Basic
import ConicSaddle.Dense.Grid

/-!
# Exact arithmetic in an ordered field

Scalars that are read as elements of an ordered field, with operations and comparisons that are
those of the field.  Nothing is said of a quotient by zero, of square roots, or of the constants.

* `ExactScalar α F`: the reading, and the real numbers as an instance;
* `value_foldl_add`: a sum from the left;
* `supNorm`, `value_normInf`: the largest magnitude.
-/

namespace ConicSaddle

/-- Scalars that compute in an ordered field, where no value is a NaN or infinite. -/
class ExactScalar (α : Type) [Scalar α] (F : outParam Type) [Field F] [LinearOrder F]
    [IsStrictOrderedRing F] where
  value : α → F
  value_zero : value 0 = 0
  value_one : value 1 = 1
  value_add (x y : α) : value (x + y) = value x + value y
  value_sub (x y : α) : value (x - y) = value x - value y
  value_mul (x y : α) : value (x * y) = value x * value y
  value_neg (x : α) : value (-x) = -value x
  value_div (x : α) {y : α} (hy : value y ≠ 0) : value (x / y) = value x / value y
  value_abs (x : α) : value (Scalar.abs x) = |value x|
  lt_eq (x y : α) : Scalar.lt x y = decide (value x < value y)
  le_eq (x y : α) : Scalar.le x y = decide (value x ≤ value y)
  same_eq (x y : α) : Scalar.same x y = decide (value x = value y)
  isNaN_eq (x : α) : Scalar.isNaN x = false
  isFinite_eq (x : α) : Scalar.isFinite x = true

/-- The real numbers are read as themselves. -/
noncomputable instance : ExactScalar ℝ ℝ where
  value x := x
  value_zero := rfl
  value_one := rfl
  value_add _ _ := rfl
  value_sub _ _ := rfl
  value_mul _ _ := rfl
  value_neg _ := rfl
  value_div _ _ _ := rfl
  value_abs _ := rfl
  lt_eq _ _ := rfl
  le_eq _ _ := rfl
  same_eq _ _ := rfl
  isNaN_eq _ := rfl
  isFinite_eq _ := rfl

section

variable {F : Type} [Field F] [LinearOrder F] {n : ℕ}

/-- The largest magnitude, zero where there is none. -/
def supNorm (x : Fin n → F) : F := Finset.univ.fold max 0 fun i => |x i|

/-- The bounds of the largest magnitude. -/
theorem supNorm_le {x : Fin n → F} {c : F} : supNorm x ≤ c ↔ 0 ≤ c ∧ ∀ i, |x i| ≤ c := by
  unfold supNorm
  rw [Finset.fold_max_le]
  simp only [Finset.mem_univ, true_implies]

theorem supNorm_nonneg (x : Fin n → F) : 0 ≤ supNorm x := (supNorm_le.mp le_rfl).1

end

namespace ExactScalar

variable {α F : Type} [Scalar α] [Field F] [LinearOrder F] [IsStrictOrderedRing F]
  [ExactScalar α F] {n : ℕ}

/-- A sum from the left. -/
theorem value_foldl_add {β : Type} (f : β → α) (xs : List β) (start : α) :
    value (xs.foldl (fun s x => s + f x) start) =
      value start + (xs.map fun x => value (f x)).sum := by
  induction xs generalizing start with
  | nil => exact (add_zero _).symm
  | cons x xs ih =>
    rw [List.foldl_cons, ih, value_add, List.map_cons, List.sum_cons, add_assoc]

/-- A bound of the largest magnitude in a list is a bound of every entry. -/
theorem value_largestMagnitude_le (xs : List α) (best : α) (c : F) :
    value (Vec.largestMagnitude xs best) ≤ c ↔ value best ≤ c ∧ ∀ v ∈ xs, |value v| ≤ c := by
  induction xs generalizing best with
  | nil => simp [Vec.largestMagnitude]
  | cons v xs ih =>
    have hstep : value (if Scalar.lt best (Scalar.abs v) then Scalar.abs v else best) =
        max (value best) |value v| := by
      rw [lt_eq, value_abs]
      split
      · next h =>
        rw [value_abs, max_eq_right (le_of_lt (of_decide_eq_true h))]
      · next h =>
        rw [max_eq_left (not_lt.mp fun hlt => h (decide_eq_true hlt))]
    have hnext : Vec.largestMagnitude (v :: xs) best = Vec.largestMagnitude xs
        (if Scalar.lt best (Scalar.abs v) then Scalar.abs v else best) := by
      have hnumber : Scalar.isNaN (Scalar.abs v) = false := isNaN_eq _
      rw [Vec.largestMagnitude]
      simp only [hnumber, Bool.false_eq_true, if_false]
    rw [hnext, ih, hstep, max_le_iff, List.forall_mem_cons, and_assoc]

/-- The norm of a vector. -/
theorem value_normInf (x : Vector α n) :
    value (Vec.normInf x.toArray) = supNorm fun i => value (x.get i) := by
  refine eq_of_forall_ge_iff fun c => ?_
  unfold Vec.normInf
  rw [value_largestMagnitude_le, supNorm_le, value_zero]
  refine and_congr_right fun _ => ?_
  constructor
  · intro h i
    exact h _ (Array.mem_toList_iff.mpr (Array.getElem_mem _))
  · intro h v hv
    obtain ⟨i, hi, rfl⟩ := Array.mem_iff_getElem.mp (Array.mem_toList_iff.mp hv)
    rw [x.size_toArray] at hi
    exact h ⟨i, hi⟩

end ExactScalar

end ConicSaddle
