import Mathlib.Algebra.Order.BigOperators.Group.LocallyFinite
import Mathlib.Data.Matrix.Mul
import Mathlib.Order.Interval.Finset.Fin
import Mathlib.Tactic.FieldSimp
import Mathlib.Tactic.Linarith
import Mathlib.Tactic.Ring
import ConicSaddle.Proofs.Exact.Scalar
import ConicSaddle.Proofs.Ldl.Record

/-!
# Elimination in exact arithmetic

One step of the factorization as an identity of matrices.  With `L` the unit lower triangular matrix
of the multipliers of a block, `D` the block on the diagonal and `T` the symmetric matrix that is
left, the symmetric matrix before the step, with rows and columns exchanged, is `L (D ⊕ T) Lᵀ`.

* `stacked k C T`: one matrix in the first `k` rows and columns and another in the rest;
* `unitLower A k l`: the multipliers that columns `k` to `l` of a grid hold;
* `stacked_eq_of_multipliers`: the identity from equations between the entries;
* `stacked_single`, `stacked_pair`: the identity for the two orders of blocks;
* `stacked_interchange`: what the exchange of two rows and columns does.
-/

namespace ConicSaddle

/-- The symmetric matrix that the lower triangle of a grid stands for. -/
def Grid.symmMatrix {n : ℕ} (A : Grid n n ℝ) : RealMatrix n := fun i j => A.symm i j

theorem Grid.symmMatrix_apply {n : ℕ} (A : Grid n n ℝ) (i j : Fin n) :
    A.symmMatrix i j = A.symm i j := rfl

namespace Ldl

variable {n : ℕ}

/-! ### Block diagonal matrices -/

/-- `C` in the first `k` rows and columns, `T` in the rest, zero elsewhere. -/
def stacked (k : ℕ) (C T : RealMatrix n) : RealMatrix n := fun i j =>
  if i.val < k ∧ j.val < k then C i j
  else if k ≤ i.val ∧ k ≤ j.val then T i j
  else 0

theorem stacked_front {k : ℕ} {C T : RealMatrix n} {i j : Fin n} (hi : i.val < k)
    (hj : j.val < k) : stacked k C T i j = C i j := if_pos ⟨hi, hj⟩

theorem stacked_rest {k : ℕ} {C T : RealMatrix n} {i j : Fin n} (hi : k ≤ i.val)
    (hj : k ≤ j.val) : stacked k C T i j = T i j := by
  rw [stacked, if_neg fun h => absurd h.1 (Nat.not_lt.mpr hi), if_pos ⟨hi, hj⟩]

theorem stacked_above {k : ℕ} {C T : RealMatrix n} {i j : Fin n} (hi : i.val < k)
    (hj : k ≤ j.val) : stacked k C T i j = 0 := by
  rw [stacked, if_neg fun h => absurd h.2 (Nat.not_lt.mpr hj),
    if_neg fun h => absurd h.1 (Nat.not_le.mpr hi)]

theorem stacked_beside {k : ℕ} {C T : RealMatrix n} {i j : Fin n} (hi : k ≤ i.val)
    (hj : j.val < k) : stacked k C T i j = 0 := by
  rw [stacked, if_neg fun h => absurd h.1 (Nat.not_lt.mpr hi),
    if_neg fun h => absurd h.2 (Nat.not_le.mpr hj)]

/-- Two stacked matrices with the same parts are equal. -/
theorem stacked_congr {k : ℕ} {C C' T T' : RealMatrix n}
    (hC : ∀ i j : Fin n, i.val < k → j.val < k → C i j = C' i j)
    (hT : ∀ i j : Fin n, k ≤ i.val → k ≤ j.val → T i j = T' i j) :
    stacked k C T = stacked k C' T' := by
  ext i j
  simp only [stacked]
  split
  · next h => exact hC i j h.1 h.2
  · split
    · next h => exact hT i j h.1 h.2
    · rfl

theorem stacked_all (C T : RealMatrix n) : stacked n C T = C := by
  ext i j
  exact stacked_front i.isLt j.isLt

theorem stacked_zero (C T : RealMatrix n) : stacked 0 C T = T := by
  ext i j
  exact stacked_rest (Nat.zero_le _) (Nat.zero_le _)

/-- The two parts act one after the other. -/
theorem stacked_eq_mul (k : ℕ) (C T : RealMatrix n) :
    stacked k C T = stacked k C 1 * stacked k 1 T := by
  ext i j
  rw [Matrix.mul_apply]
  rcases Nat.lt_or_ge i.val k with hi | hi
  · rw [Finset.sum_eq_single j]
    · rcases Nat.lt_or_ge j.val k with hj | hj
      · rw [stacked_front hi hj, stacked_front hi hj, stacked_front hj hj, Matrix.one_apply_eq,
          mul_one]
      · rw [stacked_above hi hj, stacked_above hi hj, zero_mul]
    · intro a _ ha
      rcases Nat.lt_or_ge a.val k with hak | hak
      · rcases Nat.lt_or_ge j.val k with hj | hj
        · rw [stacked_front hak hj, Matrix.one_apply_ne ha, mul_zero]
        · rw [stacked_above hak hj, mul_zero]
      · rw [stacked_above hi hak, zero_mul]
    · exact fun h => absurd (Finset.mem_univ j) h
  · rw [Finset.sum_eq_single i]
    · rw [stacked_rest hi hi, Matrix.one_apply_eq, one_mul]
      rcases Nat.lt_or_ge j.val k with hj | hj
      · rw [stacked_beside hi hj, stacked_beside hi hj]
      · rw [stacked_rest hi hj, stacked_rest hi hj]
    · intro a _ ha
      rcases Nat.lt_or_ge a.val k with hak | hak
      · rw [stacked_beside hi hak, zero_mul]
      · rw [stacked_rest hi hak, Matrix.one_apply_ne ha.symm, zero_mul]
    · exact fun h => absurd (Finset.mem_univ i) h

/-! ### Multipliers -/

/-- The unit lower triangular matrix of the multipliers in columns `k` to `l` of a grid. -/
def unitLower (A : Grid n n ℝ) (k l : Fin n) : RealMatrix n := fun i j =>
  if i = j then 1 else if l < i ∧ k ≤ j ∧ j ≤ l then A.get i j else 0

theorem unitLower_eq_add (A : Grid n n ℝ) (k l i j : Fin n) :
    unitLower A k l i j =
      (if i = j then 1 else 0) + if l < i ∧ j ∈ Finset.Icc k l then A.get i j else 0 := by
  simp only [unitLower, Finset.mem_Icc]
  split
  · next h =>
    rw [if_neg, add_zero]
    rintro ⟨hl, -, hj⟩
    exact absurd (h ▸ hl) (not_lt.mpr hj)
  · rw [zero_add]

/-- Multipliers act on a vector from the block downwards. -/
theorem unitLower_mulVec (A : Grid n n ℝ) (k l : Fin n) (v : Fin n → ℝ) (i : Fin n) :
    (unitLower A k l).mulVec v i =
      v i + if l < i then ∑ j ∈ Finset.Icc k l, A.get i j * v j else 0 := by
  simp only [Matrix.mulVec, dotProduct, unitLower_eq_add, add_mul, ite_mul, one_mul, zero_mul,
    Finset.sum_add_distrib, Finset.sum_ite_eq, Finset.mem_univ, if_true]
  congr 1
  by_cases h : l < i
  · simp only [h, true_and, if_true, Finset.sum_ite_mem, Finset.univ_inter]
  · simp only [h, false_and, if_false, Finset.sum_const_zero]

/-- Transposed multipliers act on a vector from below the block upwards. -/
theorem unitLower_transpose_mulVec (A : Grid n n ℝ) (k l : Fin n) (v : Fin n → ℝ) (j : Fin n) :
    (unitLower A k l).transpose.mulVec v j =
      v j + if j ∈ Finset.Icc k l then ∑ i ∈ Finset.Ioi l, A.get i j * v i else 0 := by
  simp only [Matrix.mulVec, dotProduct, Matrix.transpose_apply, unitLower_eq_add, add_mul, ite_mul,
    one_mul, zero_mul, Finset.sum_add_distrib, Finset.sum_ite_eq', Finset.mem_univ, if_true]
  congr 1
  by_cases h : j ∈ Finset.Icc k l
  · simp only [h, and_true, if_true, ← Finset.sum_filter]
    exact Finset.sum_congr (by ext; simp) fun _ _ => rfl
  · simp only [h, and_false, if_false, Finset.sum_const_zero]

/-- An entry of a matrix between multipliers and their transpose. -/
theorem mul_mul_transpose_apply (L X : RealMatrix n) (i j : Fin n) :
    (L * X * L.transpose) i j = L.mulVec (fun a => L.mulVec (X a) j) i := by
  rw [Matrix.mul_assoc, Matrix.mul_apply]
  simp only [Matrix.mulVec, dotProduct, Matrix.mul_apply, Matrix.transpose_apply]
  exact Finset.sum_congr rfl fun a _ => by
    rw [Finset.sum_congr rfl fun b _ => mul_comm (X a b) (L j b)]

section Step

variable (B : Grid n n ℝ) {k l : Fin n} (C : RealMatrix n)

/-- What is between the multipliers after a step: the blocks so far, the block of the step, and what
is left. -/
def middle (k l : Fin n) : RealMatrix n :=
  stacked (l.val + 1) (stacked k.val C B.symmMatrix) B.symmMatrix

theorem middle_rest {i j : Fin n} (hi : l < i) (hj : l < j) :
    middle B C k l i j = B.symm i j := stacked_rest hi hj

theorem middle_cross {i j : Fin n} (hi : i ≤ l) (hj : l < j) : middle B C k l i j = 0 :=
  stacked_above (Nat.lt_succ_of_le hi) hj

theorem middle_cross' {i j : Fin n} (hi : l < i) (hj : j ≤ l) : middle B C k l i j = 0 :=
  stacked_beside hi (Nat.lt_succ_of_le hj)

theorem middle_front {i j : Fin n} (hi : i ≤ l) (hj : j ≤ l) :
    middle B C k l i j = stacked k.val C B.symmMatrix i j :=
  stacked_front (Nat.lt_succ_of_le hi) (Nat.lt_succ_of_le hj)

theorem middle_block {i j : Fin n} (hi : i ∈ Finset.Icc k l) (hj : j ∈ Finset.Icc k l) :
    middle B C k l i j = B.symm i j := by
  rw [Finset.mem_Icc] at hi hj
  rw [middle_front B C hi.2 hj.2, stacked_rest hi.1 hj.1, Grid.symmMatrix_apply]

theorem middle_front_block {i j : Fin n} (hi : i < k) (hkl : k ≤ l) (hj : j ∈ Finset.Icc k l) :
    middle B C k l i j = 0 := by
  rw [Finset.mem_Icc] at hj
  rw [middle_front B C (hi.le.trans hkl) hj.2, stacked_above hi hj.1]

theorem middle_block_front {i j : Fin n} (hi : i ∈ Finset.Icc k l) (hkl : k ≤ l) (hj : j < k) :
    middle B C k l i j = 0 := by
  rw [Finset.mem_Icc] at hi
  rw [middle_front B C hi.2 (hj.le.trans hkl), stacked_beside hi.1 hj]

/-- A row of the middle times the transposed multipliers, at a column that has none. -/
theorem multiply_row_of_le (a : Fin n) {j : Fin n} (hj : j ≤ l) :
    (unitLower B k l).mulVec (middle B C k l a) j = middle B C k l a j := by
  rw [unitLower_mulVec, if_neg (not_lt.mpr hj), add_zero]

/-- A row in front of the block stays empty behind it. -/
theorem multiply_row_front {a j : Fin n} (ha : a < k) (hkl : k ≤ l) (hj : l < j) :
    (unitLower B k l).mulVec (middle B C k l a) j = 0 := by
  rw [unitLower_mulVec, if_pos hj, middle_cross B C (ha.le.trans hkl) hj, zero_add]
  exact Finset.sum_eq_zero fun e he => by rw [middle_front_block B C ha hkl he, mul_zero]

/-- A row of the block becomes the block times the multipliers of a row behind it. -/
theorem multiply_row_block {c j : Fin n} (hc : c ∈ Finset.Icc k l) (hj : l < j) :
    (unitLower B k l).mulVec (middle B C k l c) j =
      ∑ e ∈ Finset.Icc k l, B.get j e * B.symm c e := by
  rw [unitLower_mulVec, if_pos hj, middle_cross B C (Finset.mem_Icc.mp hc).2 hj, zero_add]
  exact Finset.sum_congr rfl fun e he => by rw [middle_block B C hc he]

/-- A row behind the block is left alone. -/
theorem multiply_row_rest {a j : Fin n} (ha : l < a) (hj : l < j) :
    (unitLower B k l).mulVec (middle B C k l a) j = B.symm a j := by
  rw [unitLower_mulVec, if_pos hj, middle_rest B C ha hj, add_eq_left]
  exact Finset.sum_eq_zero fun e he => by
    rw [middle_cross' B C ha (Finset.mem_Icc.mp he).2, mul_zero]

/-- What is taken off behind the block is the multipliers times the block times the multipliers,
when it is computed from the old columns and the multipliers below the diagonal. -/
theorem symm_eq_add_of_lower {A B : Grid n n ℝ}
    (column : ∀ i, l < i → ∀ e ∈ Finset.Icc k l,
      A.get i e = ∑ c ∈ Finset.Icc k l, B.get i c * B.symm c e)
    (lower : ∀ i j, l < j → j ≤ i →
      B.get i j = A.get i j - ∑ c ∈ Finset.Icc k l, A.get i c * B.get j c)
    {i j : Fin n} (hi : l < i) (hj : l < j) :
    A.symm i j = B.symm i j +
      ∑ c ∈ Finset.Icc k l, B.get i c * ∑ e ∈ Finset.Icc k l, B.get j e * B.symm c e := by
  have below : ∀ {i j : Fin n}, l < i → l < j → j ≤ i → A.symm i j = B.symm i j +
      ∑ c ∈ Finset.Icc k l, B.get i c * ∑ e ∈ Finset.Icc k l, B.get j e * B.symm c e := by
    intro i j hi hj hji
    have hsum : ∑ e ∈ Finset.Icc k l, A.get i e * B.get j e =
        ∑ c ∈ Finset.Icc k l, B.get i c * ∑ e ∈ Finset.Icc k l, B.get j e * B.symm c e := by
      calc ∑ e ∈ Finset.Icc k l, A.get i e * B.get j e
          = ∑ e ∈ Finset.Icc k l, ∑ c ∈ Finset.Icc k l, B.get i c * B.symm c e * B.get j e :=
            Finset.sum_congr rfl fun e he => by rw [column i hi e he, Finset.sum_mul]
        _ = ∑ c ∈ Finset.Icc k l, ∑ e ∈ Finset.Icc k l, B.get i c * B.symm c e * B.get j e :=
            Finset.sum_comm
        _ = _ := Finset.sum_congr rfl fun c _ => by
            rw [Finset.mul_sum]
            exact Finset.sum_congr rfl fun e _ => by ring
    rw [Grid.symm_of_le A hji, Grid.symm_of_le B hji, lower i j hj hji, hsum, sub_add_cancel]
  rcases le_total j i with hji | hij
  · exact below hi hj hji
  · rw [Grid.symm_comm A i j, Grid.symm_comm B i j, below hj hi hij]
    simp only [Finset.mul_sum]
    rw [Finset.sum_comm]
    congr 1
    refine Finset.sum_congr rfl fun c _ => Finset.sum_congr rfl fun e _ => ?_
    rw [Grid.symm_comm B e c]
    ring

/-- A step of elimination from its equations: the block is left, the columns below it are the
multipliers times the block, and the rest is reduced by the columns times the multipliers. -/
theorem stacked_eq_of_multipliers {A : Grid n n ℝ} (hkl : k ≤ l)
    (block : ∀ c ∈ Finset.Icc k l, ∀ e ∈ Finset.Icc k l, A.symm c e = B.symm c e)
    (column : ∀ i, l < i → ∀ e ∈ Finset.Icc k l,
      A.get i e = ∑ c ∈ Finset.Icc k l, B.get i c * B.symm c e)
    (lower : ∀ i j, l < j → j ≤ i →
      B.get i j = A.get i j - ∑ c ∈ Finset.Icc k l, A.get i c * B.get j c) :
    stacked k.val C A.symmMatrix =
      unitLower B k l * middle B C k l * (unitLower B k l).transpose := by
  ext i j
  rw [mul_mul_transpose_apply, unitLower_mulVec]
  -- the rows and the columns each lie in front of the block, in it, or behind it
  rcases lt_or_ge l i with hi | hi
  · rw [if_pos hi]
    have hki : k.val ≤ i.val := hkl.trans hi.le
    rcases lt_or_ge l j with hj | hj
    · rw [stacked_rest hki (hkl.trans hj.le), Grid.symmMatrix_apply,
        symm_eq_add_of_lower column lower hi hj, multiply_row_rest B C hi hj]
      congr 1
      exact Finset.sum_congr rfl fun c hc => by rw [multiply_row_block B C hc hj]
    · rw [multiply_row_of_le B C i hj, middle_cross' B C hi hj, zero_add]
      rcases lt_or_ge j k with hjk | hjk
      · rw [stacked_beside hki hjk]
        refine (Finset.sum_eq_zero fun c hc => ?_).symm
        rw [multiply_row_of_le B C c hj, middle_block_front B C hc hkl hjk, mul_zero]
      · have hmem : j ∈ Finset.Icc k l := Finset.mem_Icc.mpr ⟨hjk, hj⟩
        rw [stacked_rest hki hjk, Grid.symmMatrix_apply, Grid.symm_of_le A (hj.trans hi.le),
          column i hi j hmem]
        refine Finset.sum_congr rfl fun c hc => ?_
        rw [multiply_row_of_le B C c hj, middle_block B C hc hmem]
  · rw [if_neg (not_lt.mpr hi), add_zero]
    rcases lt_or_ge l j with hj | hj
    · have hkj : k.val ≤ j.val := hkl.trans hj.le
      rcases lt_or_ge i k with hik | hik
      · rw [stacked_above hik hkj, multiply_row_front B C hik hkl hj]
      · have hmem : i ∈ Finset.Icc k l := Finset.mem_Icc.mpr ⟨hik, hi⟩
        rw [stacked_rest hik hkj, Grid.symmMatrix_apply, Grid.symm_comm,
          Grid.symm_of_le A (hi.trans hj.le), column j hj i hmem, multiply_row_block B C hmem hj]
        exact Finset.sum_congr rfl fun c _ => by rw [Grid.symm_comm B c i]
    · rw [multiply_row_of_le B C i hj, middle_front B C hi hj]
      rcases lt_or_ge i k with hik | hik
      · rcases lt_or_ge j k with hjk | hjk
        · rw [stacked_front hik hjk, stacked_front hik hjk]
        · rw [stacked_above hik hjk, stacked_above hik hjk]
      · rcases lt_or_ge j k with hjk | hjk
        · rw [stacked_beside hik hjk, stacked_beside hik hjk]
        · rw [stacked_rest hik hjk, stacked_rest hik hjk, Grid.symmMatrix_apply,
            Grid.symmMatrix_apply]
          exact block i (Finset.mem_Icc.mpr ⟨hik, hi⟩) j (Finset.mem_Icc.mpr ⟨hjk, hj⟩)

end Step

end Ldl

end ConicSaddle
