import ConicSaddle.Proofs.Exact.Action
import ConicSaddle.Proofs.Kkt.Assembly

/-!
# The packed system in exact arithmetic

The rows of the cones are scaled by `W⁻ᵀ` and packed before they are factored.  Over the reals, and
for a genuine scaling, a linear map takes them back: `Wᵀ` after unpacking.

* `Scaling.Genuine`: the stored inverses are inverses;
* `lifted blocks v`: `Wᵀ` applied to the vector that a packed layout stands for;
* `Solver.Reduces.lifted`: lifting undoes the reduction, up to mirroring;
* `Solver.Reduces.sum_mul`: the inner product with a reduced vector, in unpacked layout;
* `Solver.lifted_of_acts`: lifting is `Wᵀ W W⁻¹`.
-/

namespace ConicSaddle

open ConeDims (total)
open Vec (entries)

/-! ### Genuine scalings -/

/-- The inverses that a scaling holds are inverses, and its second order blocks are those of a
scaling. -/
structure Scaling.Genuine (W : Scaling ℝ) : Prop where
  nonlinear : ∀ i < W.dnl.size, entries W.dnl i * entries W.dnli i = 1
  orthant : ∀ i < W.d.size, entries W.d i * entries W.di i = 1
  secondOrder : ∀ v ∈ W.v, entries v 0 * entries v 0 -
    ∑ j ∈ Finset.range (v.size - 1), entries v (1 + j) * entries v (1 + j) = 1
  beta_ne_zero : ∀ beta ∈ W.beta, beta ≠ 0
  semidefinite : ∀ p ∈ W.r.zip W.rti, ∀ i < p.1.cols, ∀ j < p.1.cols,
    ∑ l ∈ Finset.range p.1.rows, p.1.grid.at l i * p.2.grid.at l j = if i = j then 1 else 0

theorem ScalingBlock.genuine_diagonal {n : ℕ} {w winv : Vector ℝ n}
    (h : ∀ i < n, entries w.toArray i * entries winv.toArray i = 1) :
    (diagonal w winv).Genuine := by
  intro i
  rw [← Vec.entries_get, ← Vec.entries_get]
  exact h i i.isLt

theorem ScalingBlock.genuine_of_isOf {p : Matrix ℝ × Matrix ℝ} {block : ScalingBlock ℝ}
    (hblock : IsOf p block)
    (h : ∀ i < p.1.cols, ∀ j < p.1.cols,
      ∑ l ∈ Finset.range p.1.rows, p.1.grid.at l i * p.2.grid.at l j = if i = j then 1 else 0) :
    block.Genuine := by
  obtain ⟨⟨rows, cols, r⟩, ⟨rows', cols', rti⟩⟩ := p
  obtain ⟨k, hr, hrti, rfl⟩ := hblock
  obtain rfl : rows = k := congrArg Prod.fst hr
  obtain rfl : cols = rows := congrArg Prod.snd hr
  obtain rfl : rows' = cols := congrArg Prod.fst hrti
  obtain rfl : cols' = rows' := congrArg Prod.snd hrti
  show r.realMatrix.transpose * rti.realMatrix = 1
  ext i j
  have hij := h i i.isLt j j.isLt
  rw [Finset.sum_range] at hij
  simp only [Grid.at_val] at hij
  rw [Matrix.mul_apply, Matrix.one_apply]
  simp only [Fin.ext_iff]
  exact hij

/-- The blocks of a genuine scaling are genuine. -/
theorem Scaling.Genuine.block {W : Scaling ℝ} {dims : ConeDims} {mnl : ℕ}
    {blocks : List (ScalingBlock ℝ)} (h : W.Genuine) (hfits : W.Fits dims mnl)
    (hblocks : W.blocks = .ok blocks) {block : ScalingBlock ℝ} (hmem : block ∈ blocks) :
    block.Genuine := by
  obtain ⟨semidefinite, hW, -, hforall⟩ := Scaling.exists_blocks hfits
  cases hW.symm.trans hblocks
  rcases List.mem_cons.mp hmem with rfl | hmem
  · exact ScalingBlock.genuine_diagonal h.nonlinear
  rcases List.mem_cons.mp hmem with rfl | hmem
  · exact ScalingBlock.genuine_diagonal h.orthant
  rcases List.mem_append.mp hmem with hmem | hmem
  · rw [← List.map_uncurry_zip_eq_zipWith] at hmem
    obtain ⟨⟨v, beta⟩, hpair, rfl⟩ := List.mem_map.mp hmem
    obtain ⟨hv, hbeta⟩ := List.of_mem_zip hpair
    exact ⟨h.secondOrder v hv, h.beta_ne_zero beta hbeta⟩
  · obtain ⟨p, hp, hof⟩ := exists_of_forall₂ hforall hmem
    exact ScalingBlock.genuine_of_isOf hof (h.semidefinite p hp)

/-! ### Lifting -/

namespace ScalingBlock

/-- The transposed action on the block that a packed layout stands for. -/
noncomputable def lift (block : ScalingBlock ℝ) (v : ℕ → ℝ) : ℕ → ℝ :=
  block.image ⟨true, false⟩ (block.cone.unpacked v)

theorem lift_congr (block : ScalingBlock ℝ) {v w : ℕ → ℝ} (h : AgreeTo block.packedSize v w) :
    AgreeTo block.numel (block.lift v) (block.lift w) := by
  have hunpacked := ConeBlock.isLocal_unpacked block.cone v w h
  rw [unpackedSize_cone] at hunpacked
  exact block.image_congr _ hunpacked

theorem isLinearMap_lift (block : ScalingBlock ℝ) : IsLinearMap ℝ block.lift := by
  have himage := block.isLinearMap_image true
  have hunpacked := block.cone.isLinearMap_unpacked
  constructor
  · intro v w
    unfold lift
    rw [hunpacked.map_add, himage.map_add]
  · intro c v
    unfold lift
    rw [hunpacked.map_smul, himage.map_smul]

variable {block : ScalingBlock ℝ}

/-- Lifting undoes the transposed inverse with packing. -/
theorem lift_packed_image (h : block.Genuine) (hproper : block.Proper) (x : ℕ → ℝ) :
    AgreeTo block.numel (block.lift (block.cone.packed (block.image ⟨true, true⟩ x)))
      (block.cone.mirror x) := by
  intro i hi
  have hunpacked := block.cone.unpacked_packed (block.image ⟨true, true⟩ x)
  rw [unpackedSize_cone] at hunpacked
  have hundo : block.image ⟨true, false⟩ (block.image ⟨true, true⟩ x) i = block.cone.mirror x i :=
    image_image h hproper true true x i hi
  unfold lift
  rw [block.image_congr _ hunpacked i hi, image_mirror, hundo]

/-- Lifting is the transposed action on the action on the inverse. -/
theorem image_image_image (h : block.Genuine) (hproper : block.Proper) (v : ℕ → ℝ) :
    AgreeTo block.numel (block.image ⟨true, false⟩ (block.image ⟨false, false⟩
      (block.image ⟨false, true⟩ (block.cone.unpacked v)))) (block.lift v) := by
  intro i hi
  have hundo : AgreeTo block.numel (block.image ⟨false, false⟩
      (block.image ⟨false, true⟩ (block.cone.unpacked v)))
      (block.cone.mirror (block.cone.unpacked v)) := image_image h hproper false true _
  rw [block.image_congr _ hundo i hi, image_mirror]
  rfl

end ScalingBlock

/-- Lifting block by block. -/
noncomputable def lifted (blocks : List (ScalingBlock ℝ)) (v : ℕ → ℝ) : ℕ → ℝ :=
  blockwise ScalingBlock.packedSize ScalingBlock.numel ScalingBlock.lift blocks v

theorem isLinearMap_lifted (blocks : List (ScalingBlock ℝ)) : IsLinearMap ℝ (lifted blocks) :=
  isLinearMap_blockwise ScalingBlock.isLinearMap_lift blocks

theorem lifted_congr {blocks : List (ScalingBlock ℝ)} {v w : ℕ → ℝ}
    (h : AgreeTo (total blocks ScalingBlock.packedSize) v w) :
    AgreeTo (total blocks ScalingBlock.numel) (lifted blocks v) (lifted blocks w) :=
  blockwise_congr (fun block _ _ _ hxy => block.lift_congr hxy) h

/-- What a scaling makes of a blockwise image is a blockwise image. -/
theorem agreeTo_image {mode : ScalingMode} {blocks : List (ScalingBlock ℝ)}
    {size : ScalingBlock ℝ → ℕ} {f : ScalingBlock ℝ → (ℕ → ℝ) → ℕ → ℝ} {v x y : ℕ → ℝ}
    (h : EachBlock ScalingBlock.numel ScalingBlock.numel (ScalingBlock.Acts mode) blocks x y)
    (hx : AgreeTo (total blocks ScalingBlock.numel) x
      (blockwise size ScalingBlock.numel f blocks v)) :
    AgreeTo (total blocks ScalingBlock.numel) y
      (blockwise size ScalingBlock.numel (fun block v => block.image mode (f block v))
        blocks v) := by
  have hlocal : IsLocal ScalingBlock.numel ScalingBlock.numel (ScalingBlock.image mode) :=
    fun block _ _ hxy => block.image_congr mode hxy
  have himage : AgreeTo _ y (blockwise _ _ (ScalingBlock.image mode) blocks x) :=
    h.agreeTo fun _ _ _ _ hacts => hacts.agreeTo
  intro i hi
  rw [himage i hi, blockwise_congr (fun block _ _ _ hxy => hlocal block _ _ hxy) hx i hi]
  exact blockwise_comp hlocal (fun _ _ _ _ _ => rfl) v i hi

/-! ### The rows of the cones -/

namespace Solver

variable {P : Problem ℝ} {W : Scaling ℝ} {blocks : List (ScalingBlock ℝ)}

section

variable (hfits : W.Fits P.dims P.mnl) (hblocks : W.blocks = .ok blocks)
include hfits hblocks

/-- A reduced vector, block by block. -/
theorem Reduces.agreeTo {x v : ℕ → ℝ} (h : Reduces P blocks x v) :
    AgreeTo P.coneRows v (blockwise ScalingBlock.numel ScalingBlock.packedSize
      (fun block x => block.cone.packed (block.image ⟨true, true⟩ x)) blocks x) := by
  obtain ⟨y, hacts, hv⟩ := h
  have himage := agreeTo_image hacts fun i hi =>
    (blockwise_self ScalingBlock.numel blocks x i hi).symm
  have hlocal : IsLocal ScalingBlock.numel ScalingBlock.packedSize
      fun (block : ScalingBlock ℝ) => (block.cone.packed : (ℕ → ℝ) → ℕ → ℝ) := by
    intro block x y hxy
    rw [← ScalingBlock.unpackedSize_cone] at hxy
    exact ConeBlock.isLocal_packed block.cone x y hxy
  rw [← total_packedSize hfits hblocks]
  rw [hfits.packedVector_eq_blockwise hblocks, ← total_packedSize hfits hblocks] at hv
  intro t ht
  rw [hv t ht, blockwise_congr (fun block _ _ _ hxy => hlocal block _ _ hxy) himage t ht]
  exact blockwise_comp hlocal (fun _ _ _ _ _ => rfl) x t ht

variable (hgenuine : W.Genuine)
include hgenuine

/-- Lifting takes a reduced vector back, with its lower triangles mirrored. -/
theorem Reduces.lifted {x v : ℕ → ℝ} (h : Reduces P blocks x v) :
    AgreeTo P.rows (lifted blocks v) (mirroredVector P.dims P.mnl x) := by
  have hv := h.agreeTo hfits hblocks
  rw [← total_packedSize hfits hblocks] at hv
  rw [hfits.mirroredVector_eq_blockwise hblocks, ← total_numel hfits hblocks]
  intro i hi
  rw [lifted_congr hv i hi]
  refine blockwise_comp (fun block x y hxy => block.lift_congr hxy) (fun block hmem x => ?_) x i hi
  exact ScalingBlock.lift_packed_image (hgenuine.block hfits hblocks hmem)
    (hfits.proper_of_mem hblocks hmem) x

/-- The action, then the transposed action, on the image of a packed layout under the inverse. -/
theorem lifted_of_acts {v x y z w : ℕ → ℝ}
    (hx : AgreeTo P.rows x (unpackedVector P.dims P.mnl v))
    (hy : EachBlock ScalingBlock.numel ScalingBlock.numel (ScalingBlock.Acts ⟨false, true⟩)
      blocks x y)
    (hz : EachBlock ScalingBlock.numel ScalingBlock.numel (ScalingBlock.Acts ⟨false, false⟩)
      blocks y z)
    (hw : EachBlock ScalingBlock.numel ScalingBlock.numel (ScalingBlock.Acts ⟨true, false⟩)
      blocks z w) :
    AgreeTo P.rows w (ConicSaddle.lifted blocks v) := by
  rw [← total_numel hfits hblocks] at hx ⊢
  rw [hfits.unpackedVector_eq_blockwise hblocks] at hx
  have hlift := agreeTo_image hw (agreeTo_image hz (agreeTo_image hy hx))
  intro i hi
  rw [hlift i hi]
  refine blockwise_congr (fun block hmem v v' hv => ?_) (fun _ _ => rfl) i hi
  have himage := ScalingBlock.image_image_image (hgenuine.block hfits hblocks hmem)
    (hfits.proper_of_mem hblocks hmem) v
  exact fun i hi => (himage i hi).trans (block.lift_congr hv i hi)

omit hgenuine in
/-- The inner product with a reduced vector, when the other vector is unpacked and scaled back. -/
theorem Reduces.sum_mul {x u v y z : ℕ → ℝ} (h : Reduces P blocks x u)
    (hy : AgreeTo P.rows y (unpackedVector P.dims P.mnl v))
    (hz : EachBlock ScalingBlock.numel ScalingBlock.numel (ScalingBlock.Acts ⟨false, true⟩)
      blocks y z) :
    ∑ t ∈ Finset.range P.coneRows, u t * v t =
      ∑ i ∈ Finset.range P.rows, mirroredVector P.dims P.mnl x i * z i := by
  have hu := h.agreeTo hfits hblocks
  rw [← total_numel hfits hblocks, hfits.unpackedVector_eq_blockwise hblocks] at hy
  have hz' := agreeTo_image hz hy
  have hv := blockwise_self ScalingBlock.packedSize blocks v
  rw [hfits.mirroredVector_eq_blockwise hblocks, ← total_numel hfits hblocks,
    ← total_packedSize hfits hblocks]
  rw [← total_packedSize hfits hblocks] at hu
  calc ∑ t ∈ Finset.range (total blocks ScalingBlock.packedSize), u t * v t
      = ∑ t ∈ Finset.range (total blocks ScalingBlock.packedSize),
          blockwise ScalingBlock.numel ScalingBlock.packedSize
            (fun block x => block.cone.packed (block.image ⟨true, true⟩ x)) blocks x t *
          blockwise ScalingBlock.packedSize ScalingBlock.packedSize (fun _ v => v) blocks v t :=
        Finset.sum_congr rfl fun t ht => by
          rw [hu t (Finset.mem_range.mp ht), hv t (Finset.mem_range.mp ht)]
    _ = ∑ i ∈ Finset.range (total blocks ScalingBlock.numel),
          blockwise ScalingBlock.numel ScalingBlock.numel (fun block => block.cone.mirror)
            blocks x i *
          blockwise ScalingBlock.packedSize ScalingBlock.numel
            (fun block v => block.image ⟨false, true⟩ (block.cone.unpacked v)) blocks v i :=
        sum_blockwise (fun block hmem x v =>
          ScalingBlock.sum_packed_image (hfits.proper_of_mem hblocks hmem) x v) x v
    _ = _ := Finset.sum_congr rfl fun i hi => by rw [hz' i (Finset.mem_range.mp hi)]

end

end Solver

end ConicSaddle
