import ConicSaddle.Proofs.Exact.Scaling

/-!
# The operators of a scaling

Over the reals the four actions of a scaling, written as matrices at the places that the descriptor
gives.

* `signMatrix`, `secondOrderOperator`, `semidefiniteOperator`: the operators of a block;
* `ScalingBlock.part_image_diagonal` and its companions: a block acts by its operator;
* `Scaling.Operates`: every range of the descriptor is mapped by the operator of its block;
* `Scaling.scale_operates`: so it is after a call, and the call succeeds.
-/

namespace ConicSaddle

open ConeDims (total)
open Vec (entries)

/-! ### Parts of a sequence -/

/-- The first entries of a sequence as a vector. -/
def part (n : ℕ) (x : ℕ → ℝ) : Fin n → ℝ := fun i => x i

@[simp] theorem part_apply {n : ℕ} (x : ℕ → ℝ) (i : Fin n) : part n x i = x i := rfl

theorem part_congr {n : ℕ} {x y : ℕ → ℝ} (h : AgreeTo n x y) : part n x = part n y :=
  funext fun i => h i i.isLt

/-- The square matrix that stands in a sequence, column after column. -/
def squarePart (k : ℕ) (x : ℕ → ℝ) : RealMatrix k := fun i j => x (i + k * j)

theorem squarePart_congr {k : ℕ} {x y : ℕ → ℝ} (h : AgreeTo (k * k) x y) :
    squarePart k x = squarePart k y := by
  ext i j
  exact h _ (Grid.place_lt i j)

/-- The square matrix of an order in the corner of a stored matrix. -/
noncomputable def Matrix.squarePart (A : Matrix ℝ) (k : ℕ) : RealMatrix k :=
  fun i j => A.grid.at i j

theorem Matrix.realMatrix_toGrid {k : ℕ} {A : Matrix ℝ} (h : A.size = (k, k)) :
    (A.toGrid h).realMatrix = A.squarePart k := by
  obtain ⟨rows, cols, grid⟩ := A
  obtain rfl : rows = k := congrArg Prod.fst h
  obtain rfl : cols = rows := congrArg Prod.snd h
  ext i j
  exact (Grid.at_val grid i j).symm

/-! ### Operators -/

/-- The matrix `J = diag(1, -1, …, -1)`. -/
def signMatrix (q : ℕ) : RealMatrix q := .diagonal fun i => if i.val = 0 then 1 else -1

/-- The matrix `beta * (2 v vᵀ - J)`, or its inverse `(2 J v vᵀ J - J) / beta`. -/
noncomputable def secondOrderOperator {q : ℕ} (inverse : Bool) (v : Fin q → ℝ) (beta : ℝ) :
    RealMatrix q :=
  if inverse then
    (1 / beta) • (2 • (signMatrix q * .vecMulVec v v * signMatrix q) - signMatrix q)
  else
    beta • (2 • .vecMulVec v v - signMatrix q)

/-- The symmetric matrix that an action makes of a symmetric matrix. -/
def semidefiniteOperator {k : ℕ} (r rti : RealMatrix k) :
    ScalingMode → RealMatrix k → RealMatrix k
  | ⟨false, false⟩, X => r.transpose * X * r
  | ⟨true, false⟩, X => r * X * r.transpose
  | ⟨false, true⟩, X => rti * X * rti.transpose
  | ⟨true, true⟩, X => rti.transpose * X * rti

namespace ScalingBlock

/-! ### A block acts by its operator -/

theorem part_image_diagonal {n : ℕ} (mode : ScalingMode) (w winv : Vector ℝ n) (x : ℕ → ℝ) :
    part n ((diagonal w winv).image mode x) =
      (Matrix.diagonal
        (part n (entries (if mode.inverse then winv.toArray else w.toArray)))).mulVec
          (part n x) := by
  ext i
  rw [Matrix.mulVec_diagonal, mul_comm, part_apply, image]
  cases mode.inverse with
  | true => rfl
  | false => rfl

theorem signMatrix_mulVec {q : ℕ} (x : Fin q → ℝ) (i : Fin q) :
    (signMatrix q).mulVec x i = if i.val = 0 then x i else -x i := by
  unfold signMatrix
  rw [Matrix.mulVec_diagonal]
  split
  · exact one_mul _
  · exact neg_one_mul _

/-- An entry of a vector under a matrix of rank one less `J`. -/
theorem reflection_mulVec {q : ℕ} (c : ℝ) (u w x : Fin q → ℝ) (i : Fin q) :
    (c • (2 • Matrix.vecMulVec u w - signMatrix q)).mulVec x i =
      c * (2 * (w ⬝ᵥ x) * u i - if i.val = 0 then x i else -x i) := by
  rw [Matrix.smul_mulVec, Matrix.sub_mulVec, Matrix.smul_mulVec, Matrix.vecMulVec_mulVec]
  simp only [Pi.smul_apply, Pi.sub_apply, signMatrix_mulVec, smul_eq_mul,
    MulOpposite.smul_eq_mul_unop, MulOpposite.unop_op]
  rw [nsmul_eq_mul]
  push_cast
  ring

theorem part_reflected {q : ℕ} (v : ℕ → ℝ) (beta : ℝ) (x : ℕ → ℝ) :
    part q (reflected q v beta x) =
      (secondOrderOperator false (part q v) beta).mulVec (part q x) := by
  ext i
  have hsum : part q v ⬝ᵥ part q x = ∑ j ∈ Finset.range q, v j * x j :=
    (Finset.sum_range fun j => v j * x j).symm
  show _ = (beta • (2 • Matrix.vecMulVec (part q v) (part q v) - signMatrix q)).mulVec _ i
  rw [reflection_mulVec, hsum, part_apply, reflected, Exact.ofNat_eq]
  split
  · next hzero =>
    rw [part_apply, part_apply, hzero]
    push_cast
    ring
  · rw [part_apply, part_apply]
    push_cast
    ring

/-- The inner product with a vector whose signs were changed. -/
theorem dotProduct_signMatrix_mulVec {q : ℕ} (hq : 0 < q) (v x : ℕ → ℝ) :
    part q v ⬝ᵥ (signMatrix q).mulVec (part q x) = signedProduct q v x := by
  have hsum : part q v ⬝ᵥ (signMatrix q).mulVec (part q x) =
      ∑ j ∈ Finset.range q, v j * if j = 0 then x j else -x j := by
    rw [Finset.sum_range]
    exact Finset.sum_congr rfl fun j _ => congrArg (v j * ·) (signMatrix_mulVec _ j)
  rw [hsum, sum_range_of_pos hq, if_pos rfl]
  unfold signedProduct
  rw [sub_eq_add_neg, ← Finset.sum_neg_distrib]
  congr 1
  refine Finset.sum_congr rfl fun j _ => ?_
  rw [if_neg (by omega), mul_neg]

theorem part_reflectedBack {q : ℕ} (v : ℕ → ℝ) (beta : ℝ) (x : ℕ → ℝ) :
    part q (reflectedBack q v beta x) =
      (secondOrderOperator true (part q v) beta).mulVec (part q x) := by
  ext i
  show _ = ((1 / beta) • (2 • (signMatrix q * Matrix.vecMulVec (part q v) (part q v) *
    signMatrix q) - signMatrix q)).mulVec _ i
  -- `J v vᵀ J` is of rank one, with `vᵀ J x` in front of `J v`
  rw [Matrix.mul_vecMulVec, Matrix.vecMulVec_mul, reflection_mulVec, ← Matrix.dotProduct_mulVec,
    dotProduct_signMatrix_mulVec (Nat.zero_lt_of_lt i.isLt), signMatrix_mulVec, part_apply,
    reflectedBack, Exact.ofNat_eq]
  split
  · next hzero =>
    rw [part_apply, part_apply, hzero]
    push_cast
    ring
  · rw [part_apply, part_apply]
    push_cast
    ring

theorem part_image_secondOrder (mode : ScalingMode) (v : Array ℝ) (beta : ℝ) (x : ℕ → ℝ) :
    part v.size ((secondOrder v beta).image mode x) =
      (secondOrderOperator mode.inverse (part v.size (entries v)) beta).mulVec (part v.size x) := by
  unfold image
  cases mode.inverse with
  | true => exact part_reflectedBack _ beta x
  | false => exact part_reflected _ beta x

theorem squarePart_image_semidefinite {k : ℕ} (mode : ScalingMode) (r rti : Grid k k ℝ)
    (x : ℕ → ℝ) :
    squarePart k ((semidefinite r rti).image mode x) =
      semidefiniteOperator r.realMatrix rti.realMatrix mode (blockMatrix k x) := by
  have hconjugate : squarePart k ((semidefinite r rti).image mode x) =
      conjugate (if mode.inverse then rti else r).realMatrix (mode.transposed == mode.inverse)
        (blockMatrix k x) := by
    ext i j
    exact columnwise_place _ i j
  rw [hconjugate]
  obtain ⟨transposed, inverse⟩ := mode
  cases transposed <;> cases inverse <;> rfl

end ScalingBlock

/-! ### Every range is mapped by its operator -/

/-- The vector `y` is what an action makes of `x`: in front the nonlinear diagonal, and then, for
every range of the descriptor, the operator of its block applied to the entries of `x` in that
range.  A semidefinite block of `x` is read from its lower triangle, one of `y` is the whole
square. -/
structure Scaling.Operates (W : Scaling ℝ) (dims : ConeDims) (mnl : ℕ) (mode : ScalingMode)
    (ranges : List (ℕ × ℕ)) (x y : ℕ → ℝ) : Prop where
  nonlinear : part mnl y =
    (Matrix.diagonal (part mnl (entries (if mode.inverse then W.dnli else W.dnl)))).mulVec
      (part mnl x)
  length : ranges.length = 1 + dims.q.length + dims.s.length
  orthant : ∃ range, ranges[0]? = some range ∧ range.2 = range.1 + dims.l ∧
    part dims.l (shift (mnl + range.1) y) =
      (Matrix.diagonal (part dims.l (entries (if mode.inverse then W.di else W.d)))).mulVec
        (part dims.l (shift (mnl + range.1) x))
  secondOrder : ∀ {j q}, dims.q[j]? = some q → ∃ range v beta,
    ranges[1 + j]? = some range ∧ range.2 = range.1 + q ∧
    W.v[j]? = some v ∧ W.beta[j]? = some beta ∧ v.size = q ∧
    part q (shift (mnl + range.1) y) =
      (secondOrderOperator mode.inverse (part q (entries v)) beta).mulVec
        (part q (shift (mnl + range.1) x))
  semidefinite : ∀ {j k}, dims.s[j]? = some k → ∃ range r rti,
    ranges[1 + dims.q.length + j]? = some range ∧ range.2 = range.1 + k * k ∧
    W.r[j]? = some r ∧ W.rti[j]? = some rti ∧ r.size = (k, k) ∧ rti.size = (k, k) ∧
    squarePart k (shift (mnl + range.1) y) =
      semidefiniteOperator (r.squarePart k) (rti.squarePart k) mode
        (blockMatrix k (shift (mnl + range.1) x))

namespace Scaling

variable {W : Scaling ℝ} {dims : ConeDims} {mnl : ℕ} {blocks : List (ScalingBlock ℝ)}
  {mode : ScalingMode} {x y : ℕ → ℝ}

/-- A block of the scaling, behind the nonlinear one, acts on a range of the descriptor. -/
theorem Fits.exists_range (hfits : W.Fits dims mnl) (hblocks : W.blocks = .ok blocks)
    (heach : EachBlock ScalingBlock.numel ScalingBlock.numel (ScalingBlock.Acts mode) blocks x y)
    {i : ℕ} {block : ScalingBlock ℝ} (hblock : blocks[i + 1]? = some block) :
    ∃ range, (ConeDims.spans ConeBlock.unpackedSize dims.blocks 0)[i]? = some range ∧
      range.2 = range.1 + block.numel ∧
      AgreeTo block.numel (shift (mnl + range.1) y)
        (block.image mode (shift (mnl + range.1) x)) := by
  have hcones := hfits.map_cone hblocks
  have hcone : dims.blocks[i]? = some block.cone := by
    have hplace := congrArg (·[i + 1]?) hcones
    simpa [hblock, ConeDims.layout] using hplace.symm
  have hstart : total (blocks.take (i + 1)) ScalingBlock.numel =
      mnl + total (dims.blocks.take i) ConeBlock.unpackedSize := by
    have htake := congrArg (fun cones => total (cones.take (i + 1)) ConeBlock.unpackedSize) hcones
    simp only [← List.map_take, ConeDims.total_map, ScalingBlock.unpackedSize_cone] at htake
    exact htake
  have hacts := (heach.getElem? hblock).agreeTo
  rw [hstart] at hacts
  refine ⟨(total (dims.blocks.take i) ConeBlock.unpackedSize,
    total (dims.blocks.take i) ConeBlock.unpackedSize + block.numel), ?_, rfl, hacts⟩
  rw [ConeDims.getElem?_spans, hcone, Option.map_some, Nat.zero_add,
    ScalingBlock.unpackedSize_cone]

/-- What the blocks make of their slices is what the operators make of the ranges. -/
theorem Fits.operates (hfits : W.Fits dims mnl) (hblocks : W.blocks = .ok blocks)
    (heach : EachBlock ScalingBlock.numel ScalingBlock.numel (ScalingBlock.Acts mode) blocks x y) :
    W.Operates dims mnl mode (ConeDims.spans ConeBlock.unpackedSize dims.blocks 0) x y where
  nonlinear := by
    have hacts := (heach.getElem? (hfits.getElem?_blocks_nonlinear hblocks)).agreeTo
    rw [List.take_zero, show total ([] : List (ScalingBlock ℝ)) ScalingBlock.numel = 0 from rfl,
      shift_zero, shift_zero] at hacts
    rw [← hfits.dnl]
    exact (part_congr hacts).trans (ScalingBlock.part_image_diagonal mode _ _ x)
  length := by
    rw [ConeDims.length_spans, ConeDims.blocks, List.length_cons, List.length_append,
      List.length_map, List.length_map]
    omega
  orthant := by
    obtain ⟨range, hrange, hsize, hacts⟩ :=
      hfits.exists_range hblocks heach (hfits.getElem?_blocks_orthant hblocks)
    rw [← hfits.d]
    refine ⟨range, hrange, hsize, ?_⟩
    exact (part_congr hacts).trans (ScalingBlock.part_image_diagonal mode _ _ _)
  secondOrder := by
    intro j q hq
    obtain ⟨v, beta, hv, hbeta, rfl, hblock⟩ := hfits.getElem?_blocks_secondOrder hblocks hq
    rw [show 2 + j = 1 + j + 1 by omega] at hblock
    obtain ⟨range, hrange, hsize, hacts⟩ := hfits.exists_range hblocks heach hblock
    refine ⟨range, v, beta, hrange, hsize, hv, hbeta, rfl, ?_⟩
    exact (part_congr hacts).trans (ScalingBlock.part_image_secondOrder mode v beta _)
  semidefinite := by
    intro j k hk
    obtain ⟨r, rti, hr, hrti, hrj, hrtij, hblock⟩ :=
      hfits.getElem?_blocks_semidefinite hblocks hk
    rw [show 2 + dims.q.length + j = 1 + dims.q.length + j + 1 by omega] at hblock
    obtain ⟨range, hrange, hsize, hacts⟩ := hfits.exists_range hblocks heach hblock
    refine ⟨range, r, rti, hrange, hsize, hrj, hrtij, hr, hrti, ?_⟩
    rw [← Matrix.realMatrix_toGrid hr, ← Matrix.realMatrix_toGrid hrti,
      ← ScalingBlock.squarePart_image_semidefinite]
    exact squarePart_congr hacts

/-- **An action is the operator of every block at the places of the descriptor.**  For a scaling
whose sizes fit, in any of the four modes: the descriptor has its ranges, the call succeeds, and the
entries in every range become the operator of the block applied to what they were.  Nothing is asked
of the factors of second order blocks, for dividing by zero gives zero in the call and in the
operator. -/
theorem scale_operates {W : Scaling ℝ} {dims : ConeDims} {mnl : ℕ}
    (checked : W.checkDims dims mnl = .ok ()) (fits : mnl + dims.unpackedSize < Word.limit)
    (mode : ScalingMode) (x : Vector ℝ (mnl + dims.unpackedSize)) (work : Workspace ℝ)
    (room : dims.maxOrder ≤ work.order) :
    ∃ ranges y work', dims.rangesUnpacked = .ok ranges ∧
      W.scale x dims mnl mode work = .ok ⟨.ok (), (y, work')⟩ ∧
      W.Operates dims mnl mode ranges (entries x.toArray) (entries y.toArray) := by
  have hfits := fits_of_checkDims checked
  obtain ⟨blocks, hblocks⟩ := hfits.exists_blocks_eq_ok
  obtain ⟨y, work', hscale, -, heach⟩ := Scaling.exists_scale checked hblocks
    (ConeDims.numelUnpacked_of_lt (by omega)) rfl fits mode x work room
  exact ⟨_, y, work', ConeDims.rangesUnpacked_of_lt (by omega), hscale,
    hfits.operates hblocks heach⟩

/-- The operators of the mixed scaling, transposed and inverted, on the mixed vector. -/
theorem scale_operates_mixed :
    mixedScaling.checkDims mixedCone 1 = .ok () ∧ 1 + mixedCone.unpackedSize < Word.limit ∧
    mixedCone.maxOrder ≤ mixedWorkspace.order ∧
    ∃ ranges y work', mixedCone.rangesUnpacked = .ok ranges ∧
      mixedScaling.scale mixedVector mixedCone 1 ⟨true, true⟩ mixedWorkspace =
        .ok ⟨.ok (), (y, work')⟩ ∧
      mixedScaling.Operates mixedCone 1 ⟨true, true⟩ ranges (entries mixedVector.toArray)
        (entries y.toArray) := by
  exact ⟨mixedScaling_checked, mixedCone_fits, mixedWorkspace_room, scale_operates
    mixedScaling_checked mixedCone_fits ⟨true, true⟩ mixedVector mixedWorkspace
    mixedWorkspace_room⟩

end Scaling

end ConicSaddle
