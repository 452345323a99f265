import ConicSaddle.Proofs.Exact.Reduction
import ConicSaddle.Proofs.Exact.RoundTrip

/-!
# Scalings in exact arithmetic

Over the reals the action of a scaling on a vector is the image of the vector under one linear map
for each block.  The laws of the blocks give those of the whole scaling, whatever blocks it has.

* `scaledVector`, `Scaling.exists_scale_image`: the image, and that it is what is computed;
* `scaledVector_scaledVector`: for a genuine scaling the inverse is undone;
* `sum_scaledVector_mul`: an action and the transposed action are adjoint;
* `Scaling.scale_undone`, `Scaling.scale_adjoint`: the same of two successive calls.
-/

namespace ConicSaddle

open ConeDims (total)
open Vec (entries)

/-! ### The image of a vector -/

/-- The image of a vector under the actions of the blocks. -/
noncomputable def scaledVector (mode : ScalingMode) (blocks : List (ScalingBlock ℝ)) :
    (ℕ → ℝ) → ℕ → ℝ :=
  blockwise ScalingBlock.numel ScalingBlock.numel (ScalingBlock.image mode) blocks

section

variable {W : Scaling ℝ} {dims : ConeDims} {mnl : ℕ} {blocks : List (ScalingBlock ℝ)}

/-- A scaling whose sizes fit computes the image. -/
theorem Scaling.exists_scale_image (checked : W.checkDims dims mnl = .ok ())
    (hblocks : W.blocks = .ok blocks) (fits : mnl + dims.unpackedSize < Word.limit)
    (mode : ScalingMode) (x : Vector ℝ (mnl + dims.unpackedSize)) (work : Workspace ℝ)
    (room : dims.maxOrder ≤ work.order) :
    ∃ y work', W.scale x dims mnl mode work = .ok ⟨.ok (), (y, work')⟩ ∧
      dims.maxOrder ≤ work'.order ∧
      AgreeTo (mnl + dims.unpackedSize) (entries y.toArray)
        (scaledVector mode blocks (entries x.toArray)) := by
  obtain ⟨y, work', hscale, horder, heach⟩ := Scaling.exists_scale checked hblocks
    (ConeDims.numelUnpacked_of_lt (by omega)) rfl fits mode x work room
  have himage := heach.agreeTo fun _ _ _ _ hacts => hacts.agreeTo
  rw [(fits_of_checkDims checked).total_numel hblocks] at himage
  exact ⟨y, work', hscale, by rwa [horder], himage⟩

variable (hfits : W.Fits dims mnl) (hblocks : W.blocks = .ok blocks)
include hfits hblocks

theorem scaledVector_congr (mode : ScalingMode) {x y : ℕ → ℝ}
    (h : AgreeTo (mnl + dims.unpackedSize) x y) :
    AgreeTo (mnl + dims.unpackedSize) (scaledVector mode blocks x)
      (scaledVector mode blocks y) := by
  rw [← hfits.total_numel hblocks] at h ⊢
  exact blockwise_congr (fun block _ _ _ hxy => block.image_congr mode hxy) h

/-- The blocks of an image are symmetric. -/
theorem mirroredVector_scaledVector (mode : ScalingMode) (x : ℕ → ℝ) :
    AgreeTo (mnl + dims.unpackedSize) (mirroredVector dims mnl (scaledVector mode blocks x))
      (scaledVector mode blocks x) := by
  rw [hfits.mirroredVector_eq_blockwise hblocks, ← hfits.total_numel hblocks]
  refine blockwise_comp (fun block x y hxy => ?_) (fun block _ x => block.mirror_image mode x) x
  rw [← ScalingBlock.unpackedSize_cone] at hxy ⊢
  exact ConeBlock.isLocal_mirror block.cone x y hxy

/-- So mirroring leaves a vector that was scaled alone. -/
theorem mirroredVector_of_agreeTo {mode : ScalingMode} {x y : ℕ → ℝ}
    (h : AgreeTo (mnl + dims.unpackedSize) y (scaledVector mode blocks x)) :
    AgreeTo (mnl + dims.unpackedSize) (mirroredVector dims mnl y) y := by
  intro i hi
  rw [mirroredVector_congr h i hi, mirroredVector_scaledVector hfits hblocks mode x i hi, h i hi]

/-- An action is undone by the action with the other inverse flag. -/
theorem scaledVector_scaledVector (genuine : W.Genuine) (transposed inverse : Bool) (x : ℕ → ℝ) :
    AgreeTo (mnl + dims.unpackedSize)
      (scaledVector ⟨transposed, !inverse⟩ blocks (scaledVector ⟨transposed, inverse⟩ blocks x))
      (mirroredVector dims mnl x) := by
  rw [hfits.mirroredVector_eq_blockwise hblocks, ← hfits.total_numel hblocks]
  refine blockwise_comp (fun block _ _ hxy => block.image_congr _ hxy) (fun block hmem x => ?_) x
  exact ScalingBlock.image_image (genuine.block hfits hblocks hmem)
    (hfits.proper_of_mem hblocks hmem) transposed inverse x

/-- An action and the transposed action are adjoint. -/
theorem sum_scaledVector_mul (transposed inverse : Bool) (x y : ℕ → ℝ) :
    ∑ i ∈ Finset.range (mnl + dims.unpackedSize),
        scaledVector ⟨transposed, inverse⟩ blocks x i * mirroredVector dims mnl y i =
      ∑ i ∈ Finset.range (mnl + dims.unpackedSize),
        mirroredVector dims mnl x i * scaledVector ⟨!transposed, inverse⟩ blocks y i := by
  rw [hfits.mirroredVector_eq_blockwise hblocks, hfits.mirroredVector_eq_blockwise hblocks,
    ← hfits.total_numel hblocks]
  refine sum_blockwise (fun block hmem x y => ?_) x y
  exact ScalingBlock.sum_image_mul (hfits.proper_of_mem hblocks hmem) transposed inverse x y

end

/-! ### A scaling with one block of each kind -/

/-- A genuine scaling of the mixed cone with one nonlinear constraint.  None of its blocks is the
identity, and the semidefinite one is not symmetric. -/
noncomputable def mixedScaling : Scaling ℝ where
  dnl := #[Scalar.ofNat 2]
  dnli := #[Scalar.recip (Scalar.ofNat 2)]
  d := #[Scalar.ofNat 3]
  di := #[Scalar.recip (Scalar.ofNat 3)]
  v := [#[Scalar.ofNat 5 / Scalar.ofNat 4, Scalar.ofNat 3 / Scalar.ofNat 4]]
  beta := [Scalar.ofNat 2]
  r := [⟨2, 2, ⟨#v[1, 0, 1, 1]⟩⟩]
  rti := [⟨2, 2, ⟨#v[1, -1, 0, 1]⟩⟩]

theorem mixedScaling_checked : mixedScaling.checkDims mixedCone 1 = .ok () := rfl

theorem mixedScaling_genuine : mixedScaling.Genuine where
  nonlinear := by
    intro i hi
    obtain rfl : i = 0 := Nat.lt_one_iff.mp hi
    show (2 : ℝ) * (1 / 2) = 1
    norm_num
  orthant := by
    intro i hi
    obtain rfl : i = 0 := Nat.lt_one_iff.mp hi
    show (3 : ℝ) * (1 / 3) = 1
    norm_num
  secondOrder := by
    intro v hv
    obtain rfl := List.mem_singleton.mp hv
    show (5 / 4 : ℝ) * (5 / 4) - ∑ j ∈ Finset.range 1, _ = 1
    rw [Finset.sum_range_one]
    show (5 / 4 : ℝ) * (5 / 4) - 3 / 4 * (3 / 4) = 1
    norm_num
  beta_ne_zero := by
    intro beta hbeta
    obtain rfl := List.mem_singleton.mp hbeta
    exact two_ne_zero
  semidefinite := by
    intro p hp i hi j hj
    obtain rfl := List.mem_singleton.mp hp
    show ∑ l ∈ Finset.range 2, _ = _
    rw [Finset.sum_range_succ, Finset.sum_range_one]
    have hi : i < 2 := hi
    have hj : j < 2 := hj
    obtain rfl | rfl : i = 0 ∨ i = 1 := by omega
    · obtain rfl | rfl : j = 0 ∨ j = 1 := by omega
      · show (1 : ℝ) * 1 + 0 * -1 = 1
        norm_num
      · show (1 : ℝ) * 0 + 0 * 1 = 0
        norm_num
    · obtain rfl | rfl : j = 0 ∨ j = 1 := by omega
      · show (1 : ℝ) * 1 + 1 * -1 = 0
        norm_num
      · show (1 : ℝ) * 0 + 1 * 1 = 1
        norm_num

/-- Scratch matrices of order two. -/
def mixedWorkspace : Workspace ℝ := ⟨2, ⟨2, 2, .replicate 2 2 0⟩, ⟨2, 2, .replicate 2 2 0⟩⟩

theorem mixedWorkspace_room : mixedCone.maxOrder ≤ mixedWorkspace.order := by decide

namespace Scaling

/-! ### Inverse actions -/

/-- **Scaling and inverse scaling cancel.**  Let the inverses that a scaling holds be inverses.  If
a vector is scaled in some mode and then in the mode with the other inverse flag, then both calls
succeed and leave the vector with the lower triangles of its semidefinite blocks mirrored. -/
theorem scale_undone {W : Scaling ℝ} {dims : ConeDims} {mnl : ℕ}
    (checked : W.checkDims dims mnl = .ok ()) (genuine : W.Genuine)
    (fits : mnl + dims.unpackedSize < Word.limit) (transposed inverse : Bool)
    (x : Vector ℝ (mnl + dims.unpackedSize)) (work : Workspace ℝ)
    (room : dims.maxOrder ≤ work.order) :
    ∃ y work₁ z work₂,
      W.scale x dims mnl ⟨transposed, inverse⟩ work = .ok ⟨.ok (), (y, work₁)⟩ ∧
      W.scale y dims mnl ⟨transposed, !inverse⟩ work₁ = .ok ⟨.ok (), (z, work₂)⟩ ∧
      AgreeTo (mnl + dims.unpackedSize) (entries z.toArray)
        (mirroredVector dims mnl (entries x.toArray)) := by
  have hfits := fits_of_checkDims checked
  obtain ⟨blocks, hblocks⟩ := hfits.exists_blocks_eq_ok
  obtain ⟨y, work₁, hy, room₁, himage⟩ :=
    exists_scale_image checked hblocks fits ⟨transposed, inverse⟩ x work room
  obtain ⟨z, work₂, hz, -, himage'⟩ :=
    exists_scale_image checked hblocks fits ⟨transposed, !inverse⟩ y work₁ room₁
  refine ⟨y, work₁, z, work₂, hy, hz, fun i hi => ?_⟩
  rw [himage' i hi, scaledVector_congr hfits hblocks ⟨transposed, !inverse⟩ himage i hi]
  exact scaledVector_scaledVector hfits hblocks genuine transposed inverse _ i hi

/-- The mixed vector scaled with the transposed inverse and back: its semidefinite block is
symmetric, so that every entry is had back. -/
theorem scale_undone_mixed :
    mixedScaling.checkDims mixedCone 1 = .ok () ∧ mixedScaling.Genuine ∧
    1 + mixedCone.unpackedSize < Word.limit ∧ mixedCone.maxOrder ≤ mixedWorkspace.order ∧
    ∃ y work₁ z work₂,
      mixedScaling.scale mixedVector mixedCone 1 ⟨true, true⟩ mixedWorkspace =
        .ok ⟨.ok (), (y, work₁)⟩ ∧
      mixedScaling.scale y mixedCone 1 ⟨true, false⟩ work₁ = .ok ⟨.ok (), (z, work₂)⟩ ∧
      z = mixedVector := by
  obtain ⟨y, work₁, z, work₂, hy, hz, hmirror⟩ :=
    scale_undone mixedScaling_checked mixedScaling_genuine mixedCone_fits true true mixedVector
      mixedWorkspace mixedWorkspace_room
  refine ⟨mixedScaling_checked, mixedScaling_genuine, mixedCone_fits, mixedWorkspace_room, y,
    work₁, z, work₂, hy, hz, ?_⟩
  refine Vec.ext_entries fun i hi => ?_
  rw [hmirror i hi, symmetricBlocks_mixedVector.mirroredVector i hi]

/-! ### Adjoint actions -/

/-- **The transposed actions are the adjoint ones.**  For vectors `x` and `y` with symmetric
semidefinite blocks, the inner product of `W x` and `y` is that of `x` and `Wᵀ y`, and the same for
`W⁻¹` and `W⁻ᵀ` as they are stored: nothing is asked of the blocks, and dividing by a second order
factor of zero counts as zero on both sides.  Packed into any buffer, both sides have inner products
that agree as well. -/
theorem scale_adjoint {W : Scaling ℝ} {dims : ConeDims} {mnl : ℕ}
    (checked : W.checkDims dims mnl = .ok ()) (fits : mnl + dims.unpackedSize < Word.limit)
    (inverse : Bool) {x y : Vector ℝ (mnl + dims.unpackedSize)}
    (symmetric_x : SymmetricBlocks dims.s (shift (mnl + dims.linearSize) (entries x.toArray)))
    (symmetric_y : SymmetricBlocks dims.s (shift (mnl + dims.linearSize) (entries y.toArray)))
    (work work' : Workspace ℝ) (room : dims.maxOrder ≤ work.order)
    (room' : dims.maxOrder ≤ work'.order) :
    ∃ s work₁ t work₂,
      W.scale x dims mnl ⟨false, inverse⟩ work = .ok ⟨.ok (), (s, work₁)⟩ ∧
      W.scale y dims mnl ⟨true, inverse⟩ work' = .ok ⟨.ok (), (t, work₂)⟩ ∧
      Vec.dot s.toArray y.toArray = Vec.dot x.toArray t.toArray ∧
      ∀ {e offset : ℕ} (dst : Vector ℝ e), offset + (mnl + dims.packedSize) ≤ e →
        e < Word.limit → ∃ s' y' x' t' : Vector ℝ e,
          pack s.toArray dst dims mnl offset = .ok ⟨.ok (), s'⟩ ∧
          pack y.toArray dst dims mnl offset = .ok ⟨.ok (), y'⟩ ∧
          pack x.toArray dst dims mnl offset = .ok ⟨.ok (), x'⟩ ∧
          pack t.toArray dst dims mnl offset = .ok ⟨.ok (), t'⟩ ∧
          Vec.dot (packedPart dims mnl offset s') (packedPart dims mnl offset y') =
            Vec.dot (packedPart dims mnl offset x') (packedPart dims mnl offset t') := by
  have hfits := fits_of_checkDims checked
  obtain ⟨blocks, hblocks⟩ := hfits.exists_blocks_eq_ok
  obtain ⟨s, work₁, hs, -, himage⟩ :=
    exists_scale_image checked hblocks fits ⟨false, inverse⟩ x work room
  obtain ⟨t, work₂, ht, -, himage'⟩ :=
    exists_scale_image checked hblocks fits ⟨true, inverse⟩ y work' room'
  have hx := symmetric_x.mirroredVector
  have hy := symmetric_y.mirroredVector
  have hs' := mirroredVector_of_agreeTo hfits hblocks himage
  have ht' := mirroredVector_of_agreeTo hfits hblocks himage'
  -- nothing changes by mirroring, so that the law of the blocks is that of the vectors
  have hsum : ∑ i ∈ Finset.range (mnl + dims.unpackedSize),
      mirroredVector dims mnl (entries s.toArray) i *
        mirroredVector dims mnl (entries y.toArray) i =
      ∑ i ∈ Finset.range (mnl + dims.unpackedSize),
        mirroredVector dims mnl (entries x.toArray) i *
          mirroredVector dims mnl (entries t.toArray) i := by
    calc _ = ∑ i ∈ Finset.range (mnl + dims.unpackedSize),
          scaledVector ⟨false, inverse⟩ blocks (entries x.toArray) i *
            mirroredVector dims mnl (entries y.toArray) i :=
          Finset.sum_congr rfl fun i hi => by
            rw [hs' i (Finset.mem_range.mp hi), himage i (Finset.mem_range.mp hi)]
      _ = ∑ i ∈ Finset.range (mnl + dims.unpackedSize),
          mirroredVector dims mnl (entries x.toArray) i *
            scaledVector ⟨true, inverse⟩ blocks (entries y.toArray) i :=
          sum_scaledVector_mul hfits hblocks false inverse _ _
      _ = _ := Finset.sum_congr rfl fun i hi => by
            rw [ht' i (Finset.mem_range.mp hi), himage' i (Finset.mem_range.mp hi)]
  refine ⟨s, work₁, t, work₂, hs, ht, ?_, ?_⟩
  · rw [dot_of_symmetric hs' hy, dot_of_symmetric hx ht', hsum]
  · intro e offset dst packable addressed
    have hpack := fun u => pack_eq_ok fits packable addressed u dst
    refine ⟨_, _, _, _, hpack s, hpack y, hpack x, hpack t, ?_⟩
    rw [dot_packedPart fits packable addressed (hpack s) (hpack y),
      dot_packedPart fits packable addressed (hpack x) (hpack t), hsum]

/-- The mixed vector, on both sides, with the inverse of a scaling whose semidefinite block is not
symmetric. -/
theorem scale_adjoint_mixed :
    mixedScaling.checkDims mixedCone 1 = .ok () ∧ 1 + mixedCone.unpackedSize < Word.limit ∧
    SymmetricBlocks mixedCone.s (shift (1 + mixedCone.linearSize) (entries mixedVector.toArray)) ∧
    mixedCone.maxOrder ≤ mixedWorkspace.order ∧
    ∃ s work₁ t work₂,
      mixedScaling.scale mixedVector mixedCone 1 ⟨false, true⟩ mixedWorkspace =
        .ok ⟨.ok (), (s, work₁)⟩ ∧
      mixedScaling.scale mixedVector mixedCone 1 ⟨true, true⟩ mixedWorkspace =
        .ok ⟨.ok (), (t, work₂)⟩ ∧
      Vec.dot s.toArray mixedVector.toArray = Vec.dot mixedVector.toArray t.toArray := by
  obtain ⟨s, work₁, t, work₂, hs, ht, hdot, -⟩ := scale_adjoint mixedScaling_checked mixedCone_fits
    true symmetricBlocks_mixedVector symmetricBlocks_mixedVector mixedWorkspace mixedWorkspace
    mixedWorkspace_room mixedWorkspace_room
  exact ⟨mixedScaling_checked, mixedCone_fits, symmetricBlocks_mixedVector, mixedWorkspace_room, s,
    work₁, t, work₂, hs, ht, hdot⟩

end Scaling

end ConicSaddle
