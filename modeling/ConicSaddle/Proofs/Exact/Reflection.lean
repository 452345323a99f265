import Mathlib.Algebra.BigOperators.Field
import Mathlib.Algebra.Module.LinearMap.Basic
import Mathlib.Tactic.FieldSimp
import Mathlib.Tactic.LinearCombination
import ConicSaddle.Proofs.Cone.Blockwise
import ConicSaddle.Proofs.Exact.Scalar
import ConicSaddle.Proofs.Vec.Entries
import ConicSaddle.Proofs.Vec.PairwiseSum
import ConicSaddle.Scaling.Block

/-!
# Reflections in exact arithmetic

The second order blocks of a scaling over the reals.  With `J = diag(1, -1, …, -1)` and
`vᵀ J v = 1`, the maps `beta * (2 v vᵀ - J)` and `(2 J v vᵀ J - J) / beta` are inverse to each other
and symmetric.

* `reflected`, `reflectedBack`: the two maps;
* `reflect_eq`, `reflectBack_eq`: what is computed is their image;
* `reflected_reflectedBack`, `reflectedBack_reflected`: the one undoes the other;
* `sum_reflected_mul`, `sum_reflectedBack_mul`: both are symmetric.
-/

namespace ConicSaddle

open Vec (entries)

/-- An inner product of arrays of one length. -/
theorem Vec.dot_eq_sum_range {x y : Array ℝ} (h : x.size = y.size) :
    dot x y = ∑ i ∈ Finset.range x.size, entries x i * entries y i := by
  rw [dot_eq_sum_min, ← h, Nat.min_self]

namespace ScalingBlock

variable {q : ℕ} {v : ℕ → ℝ} {beta : ℝ}

/-- The vector `beta * (2 v vᵀ x - J x)`. -/
noncomputable def reflected (q : ℕ) (v : ℕ → ℝ) (beta : ℝ) (x : ℕ → ℝ) (i : ℕ) : ℝ :=
  let twice := Scalar.ofNat 2 * ∑ j ∈ Finset.range q, v j * x j
  beta * if i = 0 then twice * v 0 - x 0 else twice * v i + x i

/-- The inner product of `v` and `J x`. -/
def signedProduct (q : ℕ) (v x : ℕ → ℝ) : ℝ :=
  v 0 * x 0 - ∑ j ∈ Finset.range (q - 1), v (1 + j) * x (1 + j)

/-- The vector `(2 J v vᵀ J x - J x) / beta`. -/
noncomputable def reflectedBack (q : ℕ) (v : ℕ → ℝ) (beta : ℝ) (x : ℕ → ℝ) (i : ℕ) : ℝ :=
  let twice := Scalar.ofNat 2 * signedProduct q v x
  (if i = 0 then twice * v 0 - x 0 else x i - twice * v i) / beta

/-! ### What is computed -/

theorem reflect_eq {v : Array ℝ} {beta : ℝ} {x y : Vector ℝ v.size}
    (h : reflect v beta x = .ok y) :
    AgreeTo v.size (entries y.toArray) (reflected v.size (entries v) beta (entries x.toArray)) := by
  intro i hi
  have hpos : 0 < v.size := Nat.zero_lt_of_lt hi
  have hdot := Vec.dot_eq_sum_range (x.size_toArray.symm)
  unfold reflect at h
  rw [dif_pos ⟨hpos, hpos⟩] at h
  cases h
  rw [Vec.entries_ofFn _ hi]
  unfold reflected
  simp only [hdot, dif_pos hi, Vec.get_eq_entries _ hi,
    ← Vec.entries_of_lt hi, ← Vec.entries_of_lt hpos]
  split
  · next hzero => rw [hzero]
  · rfl

theorem reflectBack_eq {v : Array ℝ} {beta : ℝ} {x y : Vector ℝ v.size}
    (h : reflectBack v beta x = .ok y) :
    AgreeTo v.size (entries y.toArray)
      (reflectedBack v.size (entries v) beta (entries x.toArray)) := by
  intro i hi
  have hpos : 0 < v.size := Nat.zero_lt_of_lt hi
  have hdot : Vec.dot (v.extract 1 v.size) (x.toArray.extract 1 v.size) =
      ∑ j ∈ Finset.range (v.size - 1), entries v (1 + j) * entries x.toArray (1 + j) := by
    have hsize : (v.extract 1 v.size).size = v.size - 1 := by simp
    have hsize' : (x.toArray.extract 1 v.size).size = v.size - 1 := by simp
    rw [Vec.dot_eq_sum_range (hsize.trans hsize'.symm), hsize]
    refine Finset.sum_congr rfl fun j hj => ?_
    have hlt := Finset.mem_range.mp hj
    rw [Vec.entries_extract _ (by rwa [hsize]), Vec.entries_extract _ (by rwa [hsize'])]
  have hx : x[0] = entries x.toArray 0 := Vec.get_eq_entries x hpos
  unfold reflectBack at h
  rw [dif_pos ⟨hpos, hpos⟩] at h
  cases h
  rw [Vec.entries_ofFn _ hi]
  unfold reflectedBack signedProduct
  simp only [hdot, hx, dif_pos hi, Vec.get_eq_entries _ hi,
    ← Vec.entries_of_lt hi, ← Vec.entries_of_lt hpos]
  split
  · next hzero => rw [hzero]
  · rfl

/-! ### The two maps -/

/-- The images depend on the first entries only. -/
theorem reflected_congr {x y : ℕ → ℝ} (h : AgreeTo q x y) :
    AgreeTo q (reflected q v beta x) (reflected q v beta y) := by
  intro i hi
  have hsum : ∑ j ∈ Finset.range q, v j * x j = ∑ j ∈ Finset.range q, v j * y j :=
    Finset.sum_congr rfl fun j hj => by rw [h j (Finset.mem_range.mp hj)]
  unfold reflected
  rw [hsum, h i hi, h 0 (by omega)]

theorem reflectedBack_congr {x y : ℕ → ℝ} (h : AgreeTo q x y) :
    AgreeTo q (reflectedBack q v beta x) (reflectedBack q v beta y) := by
  intro i hi
  have hsum : ∑ j ∈ Finset.range (q - 1), v (1 + j) * x (1 + j) =
      ∑ j ∈ Finset.range (q - 1), v (1 + j) * y (1 + j) := by
    refine Finset.sum_congr rfl fun j hj => ?_
    have hlt := Finset.mem_range.mp hj
    rw [h (1 + j) (by omega)]
  unfold reflectedBack signedProduct
  rw [hsum, h i hi, h 0 (by omega)]

theorem isLinearMap_reflected : IsLinearMap ℝ (reflected q v beta) where
  map_add x y := by
    funext i
    have hsum : ∑ j ∈ Finset.range q, v j * (x + y) j =
        ∑ j ∈ Finset.range q, v j * x j + ∑ j ∈ Finset.range q, v j * y j := by
      rw [← Finset.sum_add_distrib]
      exact Finset.sum_congr rfl fun j _ => mul_add _ _ _
    rw [Pi.add_apply]
    unfold reflected
    rw [hsum, Pi.add_apply, Pi.add_apply]
    split
    · ring
    · ring
  map_smul c x := by
    funext i
    have hsum : ∑ j ∈ Finset.range q, v j * (c • x) j = c * ∑ j ∈ Finset.range q, v j * x j := by
      rw [Finset.mul_sum]
      exact Finset.sum_congr rfl fun j _ => mul_left_comm _ _ _
    rw [Pi.smul_apply]
    unfold reflected
    rw [hsum, Pi.smul_apply, Pi.smul_apply]
    simp only [smul_eq_mul]
    split
    · ring
    · ring

theorem sum_range_of_pos (hq : 0 < q) (f : ℕ → ℝ) :
    ∑ j ∈ Finset.range q, f j = f 0 + ∑ j ∈ Finset.range (q - 1), f (1 + j) := by
  obtain ⟨m, rfl⟩ : ∃ m, q = 1 + m := ⟨q - 1, by omega⟩
  rw [Finset.sum_range_add, Finset.sum_range_one, Nat.add_sub_cancel_left]

theorem reflected_zero (x : ℕ → ℝ) :
    reflected q v beta x 0 =
      beta * (2 * (∑ j ∈ Finset.range q, v j * x j) * v 0 - x 0) := rfl

theorem reflected_add (x : ℕ → ℝ) (j : ℕ) :
    reflected q v beta x (1 + j) =
      beta * (2 * (∑ j ∈ Finset.range q, v j * x j) * v (1 + j) + x (1 + j)) := by
  have hne : 1 + j ≠ 0 := by omega
  simp only [reflected, hne, if_false, Exact.ofNat_eq, Nat.cast_ofNat]

theorem reflectedBack_zero (x : ℕ → ℝ) :
    reflectedBack q v beta x 0 = (2 * signedProduct q v x * v 0 - x 0) / beta := rfl

theorem reflectedBack_add (x : ℕ → ℝ) (j : ℕ) :
    reflectedBack q v beta x (1 + j) =
      (x (1 + j) - 2 * signedProduct q v x * v (1 + j)) / beta := by
  have hne : 1 + j ≠ 0 := by omega
  simp only [reflectedBack, hne, if_false, Exact.ofNat_eq, Nat.cast_ofNat]

/-- The inner product with a reflected vector, behind the first place. -/
theorem sum_mul_reflected (w x : ℕ → ℝ) :
    ∑ j ∈ Finset.range (q - 1), w (1 + j) * reflected q v beta x (1 + j) =
      beta * (2 * (∑ j ∈ Finset.range q, v j * x j) *
        (∑ j ∈ Finset.range (q - 1), w (1 + j) * v (1 + j)) +
          ∑ j ∈ Finset.range (q - 1), w (1 + j) * x (1 + j)) := by
  have hterm : ∀ j, w (1 + j) * reflected q v beta x (1 + j) =
      beta * (2 * ∑ j ∈ Finset.range q, v j * x j) * (w (1 + j) * v (1 + j)) +
        beta * (w (1 + j) * x (1 + j)) := by
    intro j
    rw [reflected_add]
    ring
  simp only [hterm, Finset.sum_add_distrib, ← Finset.mul_sum]
  ring

theorem sum_mul_reflectedBack (w x : ℕ → ℝ) :
    ∑ j ∈ Finset.range (q - 1), w (1 + j) * reflectedBack q v beta x (1 + j) =
      (∑ j ∈ Finset.range (q - 1), w (1 + j) * x (1 + j) -
        2 * signedProduct q v x * ∑ j ∈ Finset.range (q - 1), w (1 + j) * v (1 + j)) / beta := by
  have hterm : ∀ j, w (1 + j) * reflectedBack q v beta x (1 + j) =
      (w (1 + j) * x (1 + j) - 2 * signedProduct q v x * (w (1 + j) * v (1 + j))) / beta := by
    intro j
    rw [reflectedBack_add]
    ring
  simp only [hterm, ← Finset.sum_div, Finset.sum_sub_distrib, ← Finset.mul_sum]

/-- The reflection undoes its inverse. -/
theorem reflected_reflectedBack (hq : 0 < q) (hbeta : beta ≠ 0) (hv : signedProduct q v v = 1)
    (x : ℕ → ℝ) (i : ℕ) : reflected q v beta (reflectedBack q v beta x) i = x i := by
  -- `vᵀ y = (vᵀ J x) / beta` for the image `y` of `x` under the inverse
  have hinner : ∑ j ∈ Finset.range q, v j * reflectedBack q v beta x j =
      signedProduct q v x / beta := by
    have hv' : v 0 * v 0 - ∑ j ∈ Finset.range (q - 1), v (1 + j) * v (1 + j) = 1 := hv
    have hx : ∑ j ∈ Finset.range (q - 1), v (1 + j) * x (1 + j) =
        v 0 * x 0 - signedProduct q v x := (sub_sub_cancel _ _).symm
    rw [sum_range_of_pos hq, sum_mul_reflectedBack, reflectedBack_zero, hx]
    linear_combination 2 * signedProduct q v x / beta * hv'
  by_cases hi : i = 0
  · rw [hi, reflected_zero, hinner, reflectedBack_zero]
    field_simp
    ring
  · obtain ⟨j, rfl⟩ : ∃ j, i = 1 + j := ⟨i - 1, by omega⟩
    rw [reflected_add, hinner, reflectedBack_add]
    field_simp
    ring

/-- The inverse undoes the reflection. -/
theorem reflectedBack_reflected (hq : 0 < q) (hbeta : beta ≠ 0) (hv : signedProduct q v v = 1)
    (x : ℕ → ℝ) (i : ℕ) : reflectedBack q v beta (reflected q v beta x) i = x i := by
  -- `vᵀ J y = beta * vᵀ x` for the image `y` of `x` under the reflection
  have hinner : signedProduct q v (reflected q v beta x) =
      beta * ∑ j ∈ Finset.range q, v j * x j := by
    have hv' : v 0 * v 0 - ∑ j ∈ Finset.range (q - 1), v (1 + j) * v (1 + j) = 1 := hv
    have hx := sum_range_of_pos hq fun j => v j * x j
    unfold signedProduct
    rw [sum_mul_reflected, reflected_zero]
    linear_combination 2 * beta * (∑ j ∈ Finset.range q, v j * x j) * hv' + beta * hx
  by_cases hi : i = 0
  · rw [hi, reflectedBack_zero, hinner, reflected_zero]
    field_simp
    ring
  · obtain ⟨j, rfl⟩ : ∃ j, i = 1 + j := ⟨i - 1, by omega⟩
    rw [reflectedBack_add, hinner, reflected_add]
    field_simp
    ring

/-- The reflection is symmetric. -/
theorem sum_reflected_mul (hq : 0 < q) (x y : ℕ → ℝ) :
    ∑ i ∈ Finset.range q, reflected q v beta x i * y i =
      ∑ i ∈ Finset.range q, x i * reflected q v beta y i := by
  have hone : ∀ x y : ℕ → ℝ, ∑ i ∈ Finset.range q, x i * reflected q v beta y i =
      beta * (2 * (∑ j ∈ Finset.range q, v j * x j) * (∑ j ∈ Finset.range q, v j * y j) -
        x 0 * y 0 + ∑ j ∈ Finset.range (q - 1), x (1 + j) * y (1 + j)) := by
    intro x y
    have hx := sum_range_of_pos hq fun j => v j * x j
    have hcomm : ∑ j ∈ Finset.range (q - 1), x (1 + j) * v (1 + j) =
        ∑ j ∈ Finset.range (q - 1), v (1 + j) * x (1 + j) :=
      Finset.sum_congr rfl fun j _ => mul_comm _ _
    rw [sum_range_of_pos hq, sum_mul_reflected, reflected_zero, hcomm]
    linear_combination -2 * beta * (∑ j ∈ Finset.range q, v j * y j) * hx
  have hcomm : ∑ j ∈ Finset.range (q - 1), y (1 + j) * x (1 + j) =
      ∑ j ∈ Finset.range (q - 1), x (1 + j) * y (1 + j) :=
    Finset.sum_congr rfl fun j _ => mul_comm _ _
  have hswap : ∑ i ∈ Finset.range q, reflected q v beta x i * y i =
      ∑ i ∈ Finset.range q, y i * reflected q v beta x i :=
    Finset.sum_congr rfl fun i _ => mul_comm _ _
  rw [hswap, hone x y, hone y x, hcomm]
  ring

/-- The inverse is symmetric. -/
theorem sum_reflectedBack_mul (hq : 0 < q) (x y : ℕ → ℝ) :
    ∑ i ∈ Finset.range q, reflectedBack q v beta x i * y i =
      ∑ i ∈ Finset.range q, x i * reflectedBack q v beta y i := by
  have hone : ∀ x y : ℕ → ℝ, ∑ i ∈ Finset.range q, x i * reflectedBack q v beta y i =
      (2 * signedProduct q v x * signedProduct q v y - x 0 * y 0 +
        ∑ j ∈ Finset.range (q - 1), x (1 + j) * y (1 + j)) / beta := by
    intro x y
    have hx : ∑ j ∈ Finset.range (q - 1), x (1 + j) * v (1 + j) =
        v 0 * x 0 - signedProduct q v x := by
      rw [signedProduct, sub_sub_cancel]
      exact Finset.sum_congr rfl fun j _ => mul_comm _ _
    rw [sum_range_of_pos hq, sum_mul_reflectedBack, reflectedBack_zero, hx]
    ring
  have hcomm : ∑ j ∈ Finset.range (q - 1), y (1 + j) * x (1 + j) =
      ∑ j ∈ Finset.range (q - 1), x (1 + j) * y (1 + j) :=
    Finset.sum_congr rfl fun j _ => mul_comm _ _
  have hswap : ∑ i ∈ Finset.range q, reflectedBack q v beta x i * y i =
      ∑ i ∈ Finset.range q, y i * reflectedBack q v beta x i :=
    Finset.sum_congr rfl fun i _ => mul_comm _ _
  rw [hswap, hone x y, hone y x, hcomm]
  ring

end ScalingBlock

end ConicSaddle
