import Mathlib.LinearAlgebra.Matrix.NonsingularInverse
import Mathlib.LinearAlgebra.Matrix.Trace
import ConicSaddle.Proofs.Exact.Layout
import ConicSaddle.Proofs.Exact.Reflection
import ConicSaddle.Proofs.Scaling.Action

/-!
# The action of a block in exact arithmetic

Over the reals every action of a block of a scaling is a linear map of its slice.  If the block is
genuine, its actions with and without the inverse undo each other.  An action and its transposed
action are adjoint, whatever the block is.

* `ScalingBlock.image`: the map, and `Acts.agreeTo`: what is computed is its image;
* `ScalingBlock.Genuine`: the stored inverse is the inverse;
* `ScalingBlock.image_image`: an action is undone by the action with the other inverse flag;
* `ScalingBlock.sum_image_mul`: an action and the transposed action are adjoint;
* `ScalingBlock.sum_packed_image`: the two inverses are adjoint through the packed layout.
-/

namespace ConicSaddle

open Vec (entries)

/-! ### Square matrices as blocks -/

section

variable {k : ℕ}

/-- The matrix that a square grid holds. -/
def Grid.realMatrix (A : Grid k k ℝ) : RealMatrix k := fun i j => A.get i j

/-- A square matrix column after column, zero behind the last place. -/
def columnwise (M : RealMatrix k) (t : ℕ) : ℝ :=
  if h : t < k * k then
    M ⟨t % k, mod_lt_of_place h⟩ ⟨t / k, Nat.div_lt_of_lt_mul h⟩
  else 0

theorem columnwise_place (M : RealMatrix k) (i j : Fin k) :
    columnwise M (i + k * j) = M i j := by
  unfold columnwise
  rw [dif_pos (Grid.place_lt i j)]
  congr 1
  · exact Fin.ext (place_mod i j)
  · exact Fin.ext (place_div i j)

/-- The matrix `Rᵀ X R`, or `R X Rᵀ`. -/
def conjugate (R : RealMatrix k) (transposeFirst : Bool) (X : RealMatrix k) : RealMatrix k :=
  if transposeFirst then R.transpose * X * R else R * X * R.transpose

theorem conjugate_transpose (R : RealMatrix k) (transposeFirst : Bool) {X : RealMatrix k}
    (hX : X.transpose = X) :
    (conjugate R transposeFirst X).transpose = conjugate R transposeFirst X := by
  unfold conjugate
  cases transposeFirst with
  | true =>
    rw [if_pos rfl, Matrix.transpose_mul, Matrix.transpose_mul, Matrix.transpose_transpose, hX,
      Matrix.mul_assoc]
  | false =>
    rw [if_neg Bool.false_ne_true, Matrix.transpose_mul, Matrix.transpose_mul,
      Matrix.transpose_transpose, hX, Matrix.mul_assoc]

/-- Conjugation with a matrix undoes conjugation with its transposed inverse, the other way
round. -/
theorem conjugate_conjugate {R Q : RealMatrix k} (h : R.transpose * Q = 1) (transposeFirst : Bool)
    (X : RealMatrix k) :
    conjugate R (!transposeFirst) (conjugate Q transposeFirst X) = X := by
  have hQR : Q.transpose * R = 1 := by
    have htranspose := congrArg Matrix.transpose h
    rwa [Matrix.transpose_mul, Matrix.transpose_transpose, Matrix.transpose_one] at htranspose
  have hRQ : R * Q.transpose = 1 := mul_eq_one_comm.mp hQR
  have hQR' : Q * R.transpose = 1 := mul_eq_one_comm.mp h
  cases transposeFirst with
  | true =>
    calc R * (Q.transpose * X * Q) * R.transpose
        = R * Q.transpose * X * (Q * R.transpose) := by simp only [Matrix.mul_assoc]
      _ = X := by rw [hRQ, hQR', Matrix.one_mul, Matrix.mul_one]
  | false =>
    calc R.transpose * (Q * X * Q.transpose) * R
        = R.transpose * Q * X * (Q.transpose * R) := by simp only [Matrix.mul_assoc]
      _ = X := by rw [h, hQR, Matrix.one_mul, Matrix.mul_one]

theorem sum_mul_eq_trace (A B : RealMatrix k) :
    ∑ j : Fin k, ∑ i : Fin k, A i j * B i j = (A.transpose * B).trace := by
  simp only [Matrix.trace, Matrix.diag_apply, Matrix.mul_apply, Matrix.transpose_apply]

/-- The two conjugations with a matrix are adjoint. -/
theorem sum_conjugate_mul (Q : RealMatrix k) (transposeFirst : Bool) (X Y : RealMatrix k) :
    ∑ j : Fin k, ∑ i : Fin k, conjugate Q transposeFirst X i j * Y i j =
      ∑ j : Fin k, ∑ i : Fin k, X i j * conjugate Q (!transposeFirst) Y i j := by
  have hfirst : ∀ X Y : RealMatrix k,
      ∑ j : Fin k, ∑ i : Fin k, conjugate Q true X i j * Y i j =
        ∑ j : Fin k, ∑ i : Fin k, X i j * conjugate Q false Y i j := by
    intro X Y
    rw [sum_mul_eq_trace, sum_mul_eq_trace]
    calc ((Q.transpose * X * Q).transpose * Y).trace
        = (Q.transpose * (X.transpose * Q * Y)).trace := by
          rw [Matrix.transpose_mul, Matrix.transpose_mul, Matrix.transpose_transpose]
          simp only [Matrix.mul_assoc]
      _ = (X.transpose * (Q * Y * Q.transpose)).trace := by
          rw [Matrix.trace_mul_comm]
          simp only [Matrix.mul_assoc]
  cases transposeFirst with
  | true => exact hfirst X Y
  | false =>
    have hsecond := hfirst Y X
    simp only [mul_comm (conjugate Q true Y _ _), mul_comm (Y _ _)] at hsecond
    exact hsecond.symm

theorem conjugate_add (R : RealMatrix k) (transposeFirst : Bool) (X Y : RealMatrix k) :
    conjugate R transposeFirst (X + Y) =
      conjugate R transposeFirst X + conjugate R transposeFirst Y := by
  unfold conjugate
  split
  · rw [Matrix.mul_add, Matrix.add_mul]
  · rw [Matrix.mul_add, Matrix.add_mul]

theorem conjugate_smul (R : RealMatrix k) (transposeFirst : Bool) (c : ℝ) (X : RealMatrix k) :
    conjugate R transposeFirst (c • X) = c • conjugate R transposeFirst X := by
  unfold conjugate
  split
  · rw [Matrix.mul_smul, Matrix.smul_mul]
  · rw [Matrix.mul_smul, Matrix.smul_mul]

theorem columnwise_add (M N : RealMatrix k) :
    columnwise (M + N) = columnwise M + columnwise N := by
  funext t
  rw [Pi.add_apply]
  unfold columnwise
  split
  · rfl
  · exact (add_zero 0).symm

theorem columnwise_smul (c : ℝ) (M : RealMatrix k) : columnwise (c • M) = c • columnwise M := by
  funext t
  rw [Pi.smul_apply]
  unfold columnwise
  split
  · rfl
  · exact (smul_zero c).symm

end

/-! ### Computed products -/

theorem rowSum_eq_sum (count : ℕ) (f : ℕ → ℝ) : rowSum count f = ∑ l ∈ Finset.range count, f l := by
  induction count with
  | zero => rfl
  | succ count ih => rw [rowSum_succ, ih, Finset.sum_range_succ]

/-- A product that is not scaled does not look at the old entries. -/
theorem ScalingBlock.get_storedProduct {k : ℕ} (a b : ℕ → ℕ → ℝ) (old : Grid k k ℝ)
    (i j : Fin k) : (storedProduct a b old).get i j = ∑ l : Fin k, a i l * b l j := by
  unfold storedProduct
  rw [Grid.get_ofFn, rowSum_eq_sum, Finset.sum_range]
  unfold blend
  rw [if_pos (by simp), one_mul]

namespace ScalingBlock

variable {k : ℕ}

theorem realMatrix_of_congruent {R X N : Grid k k ℝ} {transposeFirst : Bool}
    (h : Congruent R transposeFirst X N) :
    N.realMatrix = conjugate R.realMatrix transposeFirst X.realMatrix := by
  obtain ⟨old, rfl⟩ := h
  ext i j
  unfold conjugate
  cases transposeFirst with
  | true =>
    show (storedProduct _ _ _).get i j = (R.realMatrix.transpose * X.realMatrix * R.realMatrix) i j
    rw [get_storedProduct, Matrix.mul_apply]
    refine Finset.sum_congr rfl fun l _ => ?_
    rw [Grid.at_val, Grid.at_val, get_storedProduct, Matrix.mul_apply]
    simp only [Grid.at_val]
    rfl
  | false =>
    show (storedProduct _ _ _).get i j = (R.realMatrix * X.realMatrix * R.realMatrix.transpose) i j
    rw [get_storedProduct, Matrix.mul_assoc, Matrix.mul_apply]
    refine Finset.sum_congr rfl fun l _ => ?_
    rw [Grid.at_val, Grid.at_val, get_storedProduct, Matrix.mul_apply]
    simp only [Grid.at_val]
    rfl

theorem realMatrix_mirroredGrid (x : ℕ → ℝ) :
    (mirroredGrid k x).realMatrix = blockMatrix k x := by
  ext i j
  exact Grid.get_ofFn _ i j

/-! ### The map of a block -/

/-- The image of a slice under the action of a block. -/
noncomputable def image (mode : ScalingMode) : ScalingBlock ℝ → (ℕ → ℝ) → ℕ → ℝ
  | diagonal w winv, x => fun i => x i * entries (if mode.inverse then winv else w).toArray i
  | secondOrder v beta, x =>
    if mode.inverse then reflectedBack v.size (entries v) beta x
    else reflected v.size (entries v) beta x
  | semidefinite (k := k) r rti, x =>
    columnwise (conjugate (if mode.inverse then rti else r).realMatrix
      (mode.transposed == mode.inverse) (blockMatrix k x))

/-- What a block makes of its slice is the image. -/
theorem Acts.agreeTo {mode : ScalingMode} {block : ScalingBlock ℝ} {x y : ℕ → ℝ}
    (h : block.Acts mode x y) : AgreeTo block.numel y (block.image mode x) := by
  cases block with
  | @diagonal n w winv =>
    intro i hi
    have hentry := h ⟨i, hi⟩
    rw [hentry]
    unfold image
    rw [← Vec.entries_get]
  | secondOrder v beta =>
    obtain ⟨z, hz, hyz⟩ := h
    intro i hi
    rw [hyz i hi, image]
    have hx : ∀ u : ℕ → ℝ, AgreeTo v.size (entries (firstEntries v.size u).toArray) u := by
      intro u t ht
      exact Vec.entries_ofFn _ ht
    cases hmode : mode.inverse with
    | true =>
      rw [hmode, if_pos rfl] at hz
      rw [if_pos rfl, reflectBack_eq hz i hi]
      exact reflectedBack_congr (hx x) i hi
    | false =>
      rw [hmode, if_neg Bool.false_ne_true] at hz
      rw [if_neg Bool.false_ne_true, reflect_eq hz i hi]
      exact reflected_congr (hx x) i hi
  | @semidefinite k r rti =>
    obtain ⟨N, hN, hy⟩ := h
    have hmatrix := realMatrix_of_congruent hN
    rw [realMatrix_mirroredGrid] at hmatrix
    have hsymm : N.realMatrix.transpose = N.realMatrix := by
      rw [hmatrix]
      exact conjugate_transpose _ _ (blockMatrix_transpose k x)
    refine forall_place fun i j => ?_
    rw [hy, image, columnwise_place, ← hmatrix]
    unfold Grid.symm
    split
    · rfl
    · exact congrFun (congrFun hsymm i) j

/-- The image depends on the slice only. -/
theorem image_congr (mode : ScalingMode) (block : ScalingBlock ℝ) {x y : ℕ → ℝ}
    (h : AgreeTo block.numel x y) :
    AgreeTo block.numel (block.image mode x) (block.image mode y) := by
  intro i hi
  cases block with
  | diagonal w winv => exact congrArg (· * _) (h i hi)
  | secondOrder v beta =>
    unfold image
    split
    · exact reflectedBack_congr h i hi
    · exact reflected_congr h i hi
  | @semidefinite k r rti =>
    have hblock : blockMatrix k x = blockMatrix k y := blockMatrix_congr h
    unfold image
    simp only [hblock]

/-- The image of a semidefinite block stands for the conjugated matrix. -/
theorem blockMatrix_image (mode : ScalingMode) (r rti : Grid k k ℝ) (x : ℕ → ℝ) :
    blockMatrix k ((semidefinite r rti).image mode x) =
      conjugate (if mode.inverse then rti else r).realMatrix (mode.transposed == mode.inverse)
        (blockMatrix k x) := by
  apply blockMatrix_of_entries
  · exact conjugate_transpose _ _ (blockMatrix_transpose k x)
  · intro i j
    rw [image, columnwise_place]

theorem blockMatrix_mirror (x : ℕ → ℝ) :
    blockMatrix k ((ConeBlock.semidefinite k).mirror x) = blockMatrix k x :=
  blockMatrix_of_entries (blockMatrix_transpose k x) (ConeBlock.mirror_place x)

/-- A block reads the lower triangle of its slice only. -/
theorem image_mirror (mode : ScalingMode) (block : ScalingBlock ℝ) (x : ℕ → ℝ) :
    block.image mode (block.cone.mirror x) = block.image mode x := by
  cases block with
  | diagonal w winv => rfl
  | secondOrder v beta => rfl
  | semidefinite r rti =>
    rw [image, image]
    exact congrArg (fun X => columnwise (conjugate _ _ X)) (blockMatrix_mirror x)

/-- What a block makes of its slice is symmetric. -/
theorem mirror_image (mode : ScalingMode) (block : ScalingBlock ℝ) (x : ℕ → ℝ) :
    AgreeTo block.numel (block.cone.mirror (block.image mode x)) (block.image mode x) := by
  cases block with
  | diagonal w winv => exact fun _ _ => rfl
  | secondOrder v beta => exact fun _ _ => rfl
  | @semidefinite k r rti =>
    refine forall_place fun i j => ?_
    show (ConeBlock.semidefinite k).mirror _ _ = _
    rw [ConeBlock.mirror_place, blockMatrix_image, image, columnwise_place]

/-- The action without the inverse is linear. -/
theorem isLinearMap_image (transposed : Bool) (block : ScalingBlock ℝ) :
    IsLinearMap ℝ (block.image ⟨transposed, false⟩) := by
  cases block with
  | diagonal w winv =>
    constructor
    · intro x y
      funext i
      exact add_mul _ _ _
    · intro c x
      funext i
      exact mul_assoc _ _ _
  | secondOrder v beta => exact isLinearMap_reflected
  | @semidefinite k r rti =>
    constructor
    · intro x y
      have hadd : blockMatrix k (x + y) = blockMatrix k x + blockMatrix k y := rfl
      rw [image, image, image, hadd, conjugate_add, columnwise_add]
    · intro c x
      have hsmul : blockMatrix k (c • x) = c • blockMatrix k x := rfl
      rw [image, image, hsmul, conjugate_smul, columnwise_smul]

/-! ### Genuine blocks -/

/-- The inverse that a block holds is its inverse, and its data are those of a scaling. -/
def Genuine : ScalingBlock ℝ → Prop
  | diagonal w winv => ∀ i, w.get i * winv.get i = 1
  | secondOrder v beta => signedProduct v.size (entries v) (entries v) = 1 ∧ beta ≠ 0
  | semidefinite r rti => r.realMatrix.transpose * rti.realMatrix = 1

/-- An action is undone by the action with the other inverse flag. -/
theorem image_image {block : ScalingBlock ℝ} (h : block.Genuine) (hproper : block.Proper)
    (transposed inverse : Bool) (x : ℕ → ℝ) :
    AgreeTo block.numel (block.image ⟨transposed, !inverse⟩ (block.image ⟨transposed, inverse⟩ x))
      (block.cone.mirror x) := by
  cases block with
  | @diagonal n w winv =>
    intro i hi
    have hi' : i < n := hi
    have hinverse : w.get ⟨i, hi'⟩ * winv.get ⟨i, hi'⟩ = 1 := h ⟨i, hi'⟩
    rw [Vec.get_eq_entries w hi', Vec.get_eq_entries winv hi'] at hinverse
    cases inverse with
    | true =>
      show x i * entries winv.toArray i * entries w.toArray i = x i
      rw [mul_assoc, mul_comm (entries winv.toArray i), hinverse, mul_one]
    | false =>
      show x i * entries w.toArray i * entries winv.toArray i = x i
      rw [mul_assoc, hinverse, mul_one]
  | secondOrder v beta =>
    intro i _
    cases inverse with
    | true => exact reflected_reflectedBack hproper h.2 h.1 x i
    | false => exact reflectedBack_reflected hproper h.2 h.1 x i
  | @semidefinite k r rti =>
    have hswap : rti.realMatrix.transpose * r.realMatrix = 1 := by
      have htranspose := congrArg Matrix.transpose h
      rwa [Matrix.transpose_mul, Matrix.transpose_transpose, Matrix.transpose_one] at htranspose
    refine forall_place fun i j => ?_
    have hmode : (transposed == !inverse) = !(transposed == inverse) := by
      cases transposed <;> cases inverse <;> rfl
    show (semidefinite r rti).image ⟨transposed, !inverse⟩ _ _ =
      (ConeBlock.semidefinite k).mirror x _
    rw [ConeBlock.mirror_place, image, columnwise_place, blockMatrix_image, hmode]
    cases inverse with
    | true => exact congrFun (congrFun (conjugate_conjugate h _ _) i) j
    | false => exact congrFun (congrFun (conjugate_conjugate hswap _ _) i) j

/-! ### Adjoint actions -/

/-- An action and the transposed action are adjoint. -/
theorem sum_image_mul {block : ScalingBlock ℝ} (hproper : block.Proper)
    (transposed inverse : Bool) (x y : ℕ → ℝ) :
    ∑ i ∈ Finset.range block.numel,
        block.image ⟨transposed, inverse⟩ x i * block.cone.mirror y i =
      ∑ i ∈ Finset.range block.numel,
        block.cone.mirror x i * block.image ⟨!transposed, inverse⟩ y i := by
  cases block with
  | diagonal w winv =>
    refine Finset.sum_congr rfl fun i _ => ?_
    show x i * entries _ i * y i = x i * (y i * entries _ i)
    ring
  | secondOrder v beta =>
    cases inverse with
    | true => exact sum_reflectedBack_mul hproper x y
    | false => exact sum_reflected_mul hproper x y
  | @semidefinite k r rti =>
    have hmode : ((!transposed) == inverse) = !(transposed == inverse) := by
      cases transposed <;> cases inverse <;> rfl
    show ∑ i ∈ Finset.range (k * k), (semidefinite r rti).image ⟨transposed, inverse⟩ x i *
        (ConeBlock.semidefinite k).mirror y i =
      ∑ i ∈ Finset.range (k * k), (ConeBlock.semidefinite k).mirror x i *
        (semidefinite r rti).image ⟨!transposed, inverse⟩ y i
    rw [sum_square, sum_square]
    simp only [image, columnwise_place, ConeBlock.mirror_place, hmode]
    exact sum_conjugate_mul _ _ (blockMatrix k x) (blockMatrix k y)

/-- The inverse and the transposed inverse are adjoint, where the one side is in packed layout. -/
theorem sum_packed_image {block : ScalingBlock ℝ} (hproper : block.Proper) (x v : ℕ → ℝ) :
    ∑ t ∈ Finset.range block.cone.packedSize,
        block.cone.packed (block.image ⟨true, true⟩ x) t * v t =
      ∑ i ∈ Finset.range block.numel,
        block.cone.mirror x i * block.image ⟨false, true⟩ (block.cone.unpacked v) i := by
  rw [ConeBlock.sum_packed, unpackedSize_cone]
  refine Eq.trans ?_ (sum_image_mul hproper true true x (block.cone.unpacked v))
  refine Finset.sum_congr rfl fun i hi => ?_
  have hlt := Finset.mem_range.mp hi
  rw [mirror_image _ block x i hlt,
    block.cone.mirror_unpacked v i (by rwa [unpackedSize_cone])]

end ScalingBlock

end ConicSaddle
