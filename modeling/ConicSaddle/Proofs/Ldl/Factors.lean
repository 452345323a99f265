import Mathlib.LinearAlgebra.Matrix.NonsingularInverse
import Mathlib.LinearAlgebra.Matrix.Block
import Mathlib.LinearAlgebra.Matrix.Swap
import ConicSaddle.Proofs.Ldl.Blocks
import ConicSaddle.Proofs.Ldl.Solution

/-!
# The factors

In exact arithmetic the stored factors multiply out to the matrix that was factored, also when the
factorization ends in an error, and the status tells whether that matrix is singular.

* `multiplier F blocks`: the product `P₁ L₁ P₂ L₂ …` of interchanges and multipliers;
* `blockDiagonal F blocks`: the blocks on the diagonal;
* `firstZero F blocks`: the first block of order one that is zero;
* `BlockSweeps.stacked_eq`: what a sweep started from, as the product of what it left;
* `factors_multiply_out`: the statement for a whole factorization.
-/

namespace ConicSaddle.Ldl

variable {n : ℕ}

/-! ### Matrices read from the blocks -/

namespace Block

/-- The interchange of a block, followed by its multipliers. -/
noncomputable def multiplier (F : Grid n n ℝ) (b : Block n) : RealMatrix n :=
  Matrix.swap ℝ b.last b.row * unitLower F b.first b.last

/-- The symmetric matrix on the columns of a block, zero elsewhere. -/
def diagonal (F : Grid n n ℝ) (b : Block n) : RealMatrix n := fun i j =>
  if i ∈ Finset.Icc b.first b.last ∧ j ∈ Finset.Icc b.first b.last then F.symm i j else 0

end Block

/-- The product of the interchanges and multipliers of all blocks, in their order. -/
noncomputable def multiplier (F : Grid n n ℝ) (blocks : List (Block n)) : RealMatrix n :=
  (blocks.map (Block.multiplier F)).prod

/-- The block diagonal matrix of all blocks. -/
def blockDiagonal (F : Grid n n ℝ) (blocks : List (Block n)) : RealMatrix n :=
  (blocks.map (Block.diagonal F)).sum

/-- The first column whose block of order one is zero. -/
noncomputable def firstZero (F : Grid n n ℝ) : List (Block n) → Option (Fin n)
  | [] => none
  | .single k _ :: rest => if F.get k k = 0 then some k else firstZero F rest
  | .pair _ _ _ :: rest => firstZero F rest

@[simp] theorem multiplier_nil (F : Grid n n ℝ) : multiplier F [] = 1 := rfl

@[simp] theorem multiplier_cons (F : Grid n n ℝ) (b : Block n) (blocks : List (Block n)) :
    multiplier F (b :: blocks) = b.multiplier F * multiplier F blocks := by
  simp [multiplier]

@[simp] theorem blockDiagonal_nil (F : Grid n n ℝ) : blockDiagonal F [] = 0 := rfl

@[simp] theorem blockDiagonal_cons (F : Grid n n ℝ) (b : Block n) (blocks : List (Block n)) :
    blockDiagonal F (b :: blocks) = b.diagonal F + blockDiagonal F blocks := by
  simp [blockDiagonal]

/-! ### Invertible multipliers -/

/-- Rows and columns exchanged, as a product with the interchange on both sides. -/
theorem submatrix_exchange (X : RealMatrix n) (a p : Fin n) :
    X.submatrix (exchange a p) (exchange a p) =
      Matrix.swap ℝ a p * X * (Matrix.swap ℝ a p).transpose := by
  have hswap : exchange a p = ⇑(Equiv.swap a p) := funext (exchange_eq_swap a p)
  rw [Matrix.transpose_swap, Matrix.swap, Equiv.Perm.permMatrix, PEquiv.toMatrix_toPEquiv_mul,
    PEquiv.mul_toMatrix_toPEquiv, Matrix.submatrix_submatrix, Equiv.symm_swap, hswap]
  rfl

/-- A step, written with the interchange and the multipliers of its block. -/
theorem Block.conjugate_eq (F : Grid n n ℝ) (b : Block n) (X : RealMatrix n) :
    (unitLower F b.first b.last * X * (unitLower F b.first b.last).transpose).submatrix
        (exchange b.last b.row) (exchange b.last b.row) =
      b.multiplier F * X * (b.multiplier F).transpose := by
  rw [submatrix_exchange, Block.multiplier, Matrix.transpose_mul]
  simp only [Matrix.mul_assoc]

theorem det_unitLower (F : Grid n n ℝ) (k l : Fin n) : (unitLower F k l).det = 1 := by
  have htri : (unitLower F k l).IsLowerTriangular := by
    intro i j hij
    have hlt : i < j := OrderDual.toDual_lt_toDual.mp hij
    rw [unitLower, if_neg hlt.ne, if_neg fun h => absurd (hlt.trans_le h.2.2) h.1.not_gt]
  rw [Matrix.det_of_isLowerTriangular _ htri]
  simp [unitLower]

theorem Block.isUnit_multiplier (F : Grid n n ℝ) (b : Block n) : IsUnit (b.multiplier F) := by
  have hswap : IsUnit (Matrix.swap ℝ b.last b.row) :=
    IsUnit.of_mul_eq_one _ (Matrix.swap_mul_self _ _)
  refine hswap.mul ?_
  rw [Matrix.isUnit_iff_isUnit_det, det_unitLower]
  exact isUnit_one

theorem isUnit_multiplier (F : Grid n n ℝ) (blocks : List (Block n)) :
    IsUnit (multiplier F blocks) := by
  induction blocks with
  | nil => exact isUnit_one
  | cons b blocks ih => simpa using (b.isUnit_multiplier F).mul ih

/-! ### The matrix from its factors -/

/-- In front of its blocks a block diagonal matrix is zero. -/
theorem blockDiagonal_eq_zero {F : Grid n n ℝ} {blocks : List (Block n)} {k : ℕ}
    (h : ∀ b ∈ blocks, k ≤ b.first.val) {i j : Fin n} (hij : i.val < k ∨ j.val < k) :
    blockDiagonal F blocks i j = 0 := by
  induction blocks with
  | nil => rfl
  | cons b blocks ih =>
    have hb := h b List.mem_cons_self
    have hzero : b.diagonal F i j = 0 := by
      refine if_neg fun hmem => ?_
      have hi := (Finset.mem_Icc.mp hmem.1).1
      have hj := (Finset.mem_Icc.mp hmem.2).1
      simp only [Fin.le_def] at hi hj
      omega
    rw [blockDiagonal_cons, Matrix.add_apply, hzero, zero_add]
    exact ih fun b' hmem => h b' (List.mem_cons_of_mem b hmem)

/-- The block of a step, taken from what is done to what is left. -/
theorem stacked_cons {F : Grid n n ℝ} {b : Block n} {tail : List (Block n)}
    (hle : b.first ≤ b.last) (h : ∀ b' ∈ tail, b.last.val + 1 ≤ b'.first.val)
    (C : RealMatrix n) :
    stacked (b.last.val + 1) (stacked b.first.val C F.symmMatrix) (blockDiagonal F tail) =
      stacked b.first.val C (blockDiagonal F (b :: tail)) := by
  have htail : ∀ i j : Fin n, i.val < b.last.val + 1 ∨ j.val < b.last.val + 1 →
      blockDiagonal F tail i j = 0 := fun i j => blockDiagonal_eq_zero h
  have hk : b.first.val ≤ b.last.val := hle
  ext i j
  simp only [stacked, blockDiagonal_cons, Matrix.add_apply, Block.diagonal, Finset.mem_Icc,
    Fin.le_def, Grid.symmMatrix_apply]
  -- a row and a column each lie in front of the block, in it, or behind it
  grind

/-- A step around what the blocks after it stand for. -/
theorem Block.surround {F : Grid n n ℝ} {b : Block n} {tail : List (Block n)}
    (hle : b.first ≤ b.last) (h : ∀ b' ∈ tail, b.last.val + 1 ≤ b'.first.val)
    {C T : RealMatrix n}
    (hT : stacked (b.last.val + 1) (stacked b.first.val C F.symmMatrix) T =
      Ldl.multiplier F tail *
        stacked (b.last.val + 1) (stacked b.first.val C F.symmMatrix) (blockDiagonal F tail) *
        (Ldl.multiplier F tail).transpose) :
    b.multiplier F * stacked (b.last.val + 1) (stacked b.first.val C F.symmMatrix) T *
        (b.multiplier F).transpose =
      Ldl.multiplier F (b :: tail) * stacked b.first.val C (blockDiagonal F (b :: tail)) *
        (Ldl.multiplier F (b :: tail)).transpose := by
  rw [hT, stacked_cons hle h, multiplier_cons, Matrix.transpose_mul]
  simp only [Matrix.mul_assoc]

/-- A column that counts as zero. -/
theorem Sweeps.step_skip {s t : Progress n ℝ} {k : Fin n}
    (choice : choosePivot s.grid k = .zeroColumn) (rest : Sweeps (k.val + 1) (s.skip k) t)
    (C : RealMatrix n) :
    t.grid.get k k = 0 ∧ stacked k.val C s.grid.symmMatrix =
      (unitLower t.grid k k * stacked (k.val + 1) (stacked k.val C t.grid.symmMatrix)
        (s.skip k).grid.symmMatrix * (unitLower t.grid k k).transpose).submatrix
          (exchange k k) (exchange k k) := by
  have hself : exchange k k = id := by
    funext i
    rw [exchange_eq_swap, Equiv.swap_self, Equiv.refl_apply, id]
  constructor
  · rw [rest.grid_eq k (Nat.lt_succ_self k.val)]
    exact column_eq_zero choice le_rfl
  · apply rest.step_eq
    rw [hself, Matrix.submatrix_id_id]
    exact stacked_skip choice C

/-- What a sweep started from is the product of the interchanges, multipliers and blocks that it
left.  The induction is on the steps, and every step surrounds the product of what it leaves. -/
theorem BlockSweeps.stacked_eq {k : ℕ} {s t : Progress n ℝ} {blocks : List (Block n)}
    (h : BlockSweeps t k s blocks) (C : RealMatrix n) :
    stacked k C s.grid.symmMatrix =
      multiplier t.grid blocks * stacked k C (blockDiagonal t.grid blocks) *
        (multiplier t.grid blocks).transpose := by
  induction h generalizing C with
  | done => simp [stacked_all]
  | skip k choice rest behind _ ih =>
    rw [(rest.step_skip choice C).2]
    exact (Block.conjugate_eq _ (.single k k) _).trans
      (Block.surround (b := .single k k) le_rfl behind (ih _))
  | single k p choice rest behind _ ih =>
    rw [(rest.step_single choice C).2]
    exact (Block.conjugate_eq _ (.single k p) _).trans
      (Block.surround (b := .single k p) le_rfl behind (ih _))
  | pair k l p next choice rest behind _ ih =>
    have hkl : k ≤ l := by
      rw [Fin.le_def]
      omega
    rw [(rest.step_pair next choice C).2]
    exact (Block.conjugate_eq _ (.pair k l p) _).trans
      (Block.surround (b := .pair k l p) hkl behind (ih _))

/-! ### The status -/

/-- A sweep reports the first block of order one that is zero, unless it set out with a report. -/
theorem BlockSweeps.info_eq {k : ℕ} {s t : Progress n ℝ} {blocks : List (Block n)}
    (h : BlockSweeps t k s blocks) :
    t.info = if s.info = 0 then (firstZero t.grid blocks).elim 0 (·.val + 1) else s.info := by
  induction h with
  | done => simp [firstZero]
  | @skip s k _ choice rest _ _ ih =>
    rw [ih, if_neg (Progress.skip_info_ne_zero s k), firstZero,
      if_pos (rest.step_skip choice 1).1]
    rfl
  | single k p choice rest _ _ ih =>
    rw [firstZero, if_neg (rest.step_single choice 1).1]
    exact ih
  | pair k l p next choice rest _ _ ih =>
    rw [firstZero]
    exact ih

/-- The blocks of order two have negative determinants. -/
theorem BlockSweeps.pair_det_neg {k : ℕ} {s t : Progress n ℝ} {blocks : List (Block n)}
    (h : BlockSweeps t k s blocks) {i j p : Fin n} (hmem : .pair i j p ∈ blocks) :
    t.grid.get i i * t.grid.get j j - t.grid.get j i * t.grid.get j i < 0 := by
  induction h with
  | done => cases hmem
  | skip k _ _ _ _ ih => exact ih (by simpa using hmem)
  | single k p _ _ _ _ ih => exact ih (by simpa using hmem)
  | pair k l q next choice rest _ _ ih =>
    rcases List.mem_cons.mp hmem with heq | hmem
    · cases heq
      exact sub_neg.mpr (rest.step_pair next choice 1).1.2
    · exact ih hmem

/-! ### Singular matrices -/

/-- The determinant of a block diagonal matrix, one block taken off. -/
theorem det_stacked_cons {F : Grid n n ℝ} {b : Block n} {tail : List (Block n)}
    (hle : b.first ≤ b.last) (h : ∀ b' ∈ tail, b.last.val + 1 ≤ b'.first.val) :
    (stacked b.first.val 1 (blockDiagonal F (b :: tail))).det =
      (stacked (b.last.val + 1) (stacked b.first.val 1 F.symmMatrix) 1).det *
        (stacked (b.last.val + 1) 1 (blockDiagonal F tail)).det := by
  rw [← stacked_cons hle h, stacked_eq_mul, Matrix.det_mul]

theorem det_block_single (S : RealMatrix n) (k : Fin n) :
    (stacked (k.val + 1) (stacked k.val 1 S) 1).det = S k k := by
  have hdiag : stacked (k.val + 1) (stacked k.val 1 S) 1 =
      Matrix.diagonal (Function.update 1 k (S k k)) := by
    ext i j
    simp only [block_apply S k k, Finset.Icc_self, Finset.mem_singleton, Matrix.diagonal_apply,
      Function.update_apply, Pi.one_apply]
    grind
  rw [hdiag, Matrix.det_diagonal, Finset.prod_update_of_mem (Finset.mem_univ k)]
  simp

/-- A block of order two is nonsingular if its own determinant is not zero. -/
theorem det_block_pair_ne_zero {S : RealMatrix n} {k l : Fin n} (next : l.val = k.val + 1)
    (hdet : S k k * S l l - S k l * S l k ≠ 0) :
    (stacked (l.val + 1) (stacked k.val 1 S) 1).det ≠ 0 := by
  intro hzero
  obtain ⟨v, hv, hkernel⟩ := Matrix.exists_mulVec_eq_zero_iff.mpr hzero
  have hrow : ∀ i, (if i ∈ Finset.Icc k l then S i k * v k + S i l * v l else v i) = 0 := by
    intro i
    have := congrFun hkernel i
    rwa [block_mulVec, sum_Icc_succ next] at this
  have hfirst : S k k * v k + S k l * v l = 0 := by
    simpa [mem_Icc_succ next] using hrow k
  have hsecond : S l k * v k + S l l * v l = 0 := by
    simpa [mem_Icc_succ next] using hrow l
  have hvk : v k = 0 := by
    refine (mul_eq_zero.mp ?_).resolve_left hdet
    linear_combination S l l * hfirst - S k l * hsecond
  have hvl : v l = 0 := by
    refine (mul_eq_zero.mp ?_).resolve_left hdet
    linear_combination S k k * hsecond - S l k * hfirst
  refine hv (funext fun i => ?_)
  by_cases hi : i ∈ Finset.Icc k l
  · rcases (mem_Icc_succ next).mp hi with rfl | rfl
    · exact hvk
    · exact hvl
  · exact (if_neg hi).symm.trans (hrow i)

/-- The blocks are singular together exactly if one of order one is zero. -/
theorem BlockSweeps.det_ne_zero_iff {k : ℕ} {s t : Progress n ℝ} {blocks : List (Block n)}
    (h : BlockSweeps t k s blocks) :
    (stacked k 1 (blockDiagonal t.grid blocks)).det ≠ 0 ↔ firstZero t.grid blocks = none := by
  induction h with
  | done => simp [stacked_all, firstZero]
  | skip k choice rest behind _ ih =>
    have hd := (rest.step_skip choice 1).1
    have hdet := det_stacked_cons (F := t.grid) (b := .single k k) le_rfl behind
    simp only [Block.first, Block.last, det_block_single, Grid.symmMatrix_apply,
      Grid.symm_of_le _ (le_refl k), hd, zero_mul] at hdet
    rw [hdet, firstZero, if_pos hd]
    simp
  | single k p choice rest behind _ ih =>
    have hd := (rest.step_single choice 1).1
    have hdet := det_stacked_cons (F := t.grid) (b := .single k p) le_rfl behind
    simp only [Block.first, Block.last, det_block_single, Grid.symmMatrix_apply,
      Grid.symm_of_le _ (le_refl k)] at hdet
    rw [hdet, firstZero, if_neg hd, mul_ne_zero_iff, ih]
    exact and_iff_right hd
  | pair k l p next choice rest behind _ ih =>
    have hkl : k ≤ l := by
      rw [Fin.le_def]
      omega
    have hneg := sub_neg.mpr (rest.step_pair next choice 1).1.2
    have hdet := det_stacked_cons (F := t.grid) (b := .pair k l p) hkl behind
    simp only [Block.first, Block.last] at hdet
    rw [hdet, firstZero, mul_ne_zero_iff, ih]
    refine and_iff_right (det_block_pair_ne_zero next ?_)
    simpa only [Grid.symmMatrix_apply, Grid.symm_of_le _ (le_refl _), Grid.symm_of_le _ hkl,
      Grid.symm_comm _ k l] using hneg.ne

/-- A sweep over a nonsingular matrix ends without an error. -/
theorem Sweeps.info_eq_zero {A : Grid n n ℝ} {record : Record n} {t : Progress n ℝ}
    (h : Sweeps 0 ⟨A, record, 0⟩ t) (hdet : A.symmMatrix.det ≠ 0) : t.info = 0 := by
  obtain ⟨blocks, hb⟩ := h.splits.exists_blocksFrom
  have hblocks := h.blockSweeps hb
  have hproduct := hblocks.stacked_eq 1
  have hsingular := hblocks.det_ne_zero_iff
  rw [stacked_zero, stacked_zero] at hproduct
  rw [stacked_zero] at hsingular
  have hblock : (blockDiagonal t.grid blocks).det ≠ 0 := by
    intro hzero
    rw [hproduct, Matrix.det_mul, Matrix.det_mul, hzero, mul_zero, zero_mul] at hdet
    exact hdet rfl
  rw [hblocks.info_eq, if_pos rfl, hsingular.mp hblock]
  rfl

/-! ### The whole factorization -/

/-- **The factors multiply out.**  Every factorization of a square matrix, whether it ends in an
error or not, leaves a record that names the blocks of the factors.  The product of interchanges,
multipliers, blocks and the transpose is the symmetric matrix that the lower triangle stands for.
The answer reports the first block of order one that is zero, there is none exactly if the matrix is
nonsingular, and every block of order two has a negative determinant. -/
theorem factors_multiply_out (A : Grid n n ℝ) (record : Record n) :
    ∃ answer F pivots blocks,
      factor (.ofGrid A) record = .ok ⟨answer, (.ofGrid F, pivots)⟩ ∧
      pivots.blocks = .ok blocks ∧
      multiplier F blocks * blockDiagonal F blocks * (multiplier F blocks).transpose =
        A.symmMatrix ∧
      answer = (match firstZero F blocks with
        | none => .ok ()
        | some k => .error (.zeroPivot (k.val + 1))) ∧
      (answer = .ok () ↔ A.symmMatrix.det ≠ 0) ∧
      ∀ k l p, .pair k l p ∈ blocks →
        F.get k k * F.get l l - F.get l k * F.get l k < 0 := by
  obtain ⟨t, hsweep, ht⟩ := exists_factorGrid A record
  obtain ⟨blocks, hb⟩ := hsweep.splits.exists_blocksFrom
  have hblocks := hsweep.blockSweeps hb
  have hproduct := hblocks.stacked_eq 1
  rw [stacked_zero, stacked_zero] at hproduct
  have hinfo : t.info = (firstZero t.grid blocks).elim 0 (·.val + 1) := hblocks.info_eq
  have hsingular := hblocks.det_ne_zero_iff
  rw [stacked_zero] at hsingular
  have hdet : A.symmMatrix.det ≠ 0 ↔ firstZero t.grid blocks = none := by
    have hM := (Matrix.isUnit_iff_isUnit_det _).mp (isUnit_multiplier t.grid blocks)
    rw [hproduct, Matrix.det_mul, Matrix.det_mul, Matrix.det_transpose, mul_ne_zero_iff,
      mul_ne_zero_iff, hsingular]
    exact ⟨fun h => h.1.2, fun h => ⟨⟨hM.ne_zero, h⟩, hM.ne_zero⟩⟩
  refine ⟨_, t.grid, t.record, blocks, by rw [factor_ofGrid, ht]; rfl, hb, hproduct.symm, ?_, ?_,
    fun k l p => hblocks.pair_det_neg⟩
  · cases hzero : firstZero t.grid blocks <;> simp [hinfo, hzero]
  · rw [hdet, hinfo]
    cases firstZero t.grid blocks <;> simp

end ConicSaddle.Ldl
