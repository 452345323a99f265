import ConicSaddle.Proofs.Cone.Places
import ConicSaddle.Proofs.Exact.Operator

/-!
# Inner products of packed vectors

In exact arithmetic the inner product of two vectors with symmetric semidefinite blocks is that of
their packed layouts, as a whole and block by block.

* `SymmetricBlocks.squarePart_eq`: a block of a vector, as the symmetric matrix that it stands for;
* `dot_square`: packed, two blocks have the trace product of their matrices;
* `pack_keeps_products`: the statement about the calls.
-/

namespace ConicSaddle

open ConeDims (total)
open Vec (entries)

variable {dims : ConeDims} {mnl m k : ℕ}

/-- A semidefinite block in a vector whose blocks were mirrored. -/
theorem mirroredVector_square (block : dims.blocks[m]? = some (.semidefinite k)) (mnl : ℕ)
    (x : ℕ → ℝ) :
    AgreeTo (k * k)
      (shift (mnl + total (dims.blocks.take m) ConeBlock.unpackedSize) (mirroredVector dims mnl x))
      ((ConeBlock.semidefinite k).mirror
        (shift (mnl + total (dims.blocks.take m) ConeBlock.unpackedSize) x)) :=
  (eachBlock_blockwise ConeBlock.unpackedSize ConeBlock.unpackedSize ConeBlock.mirror
    (dims.layout mnl) x).getElem? (i := m + 1) block

/-- A symmetric block holds the symmetric matrix that its lower triangle stands for. -/
theorem SymmetricBlocks.squarePart_eq {x : ℕ → ℝ}
    (h : SymmetricBlocks dims.s (shift (mnl + dims.linearSize) x))
    (block : dims.blocks[m]? = some (.semidefinite k)) :
    squarePart k (shift (mnl + total (dims.blocks.take m) ConeBlock.unpackedSize) x) =
      blockMatrix k (shift (mnl + total (dims.blocks.take m) ConeBlock.unpackedSize) x) := by
  have hroom : total (dims.blocks.take m) ConeBlock.unpackedSize + k * k ≤ dims.unpackedSize :=
    ConeDims.total_take_add_le block ConeBlock.unpackedSize
  ext i j
  have hplace := Grid.place_lt i j
  have hsame := h.mirroredVector
    (mnl + total (dims.blocks.take m) ConeBlock.unpackedSize + (i + k * j)) (by omega)
  have hmirror := mirroredVector_square block mnl x _ hplace
  rw [shift_apply, hsame, ConeBlock.mirror_place] at hmirror
  exact hmirror

section

variable {offset e : ℕ} (fits : mnl + dims.unpackedSize < Word.limit)
  (room : offset + (mnl + dims.packedSize) ≤ e) (addressed : e < Word.limit)
include fits room addressed

/-- The entries of a packed block, in the buffer that packing leaves. -/
theorem entries_packedSquare {x : Vector ℝ (mnl + dims.unpackedSize)} {dst x' : Vector ℝ e}
    (packed : pack x.toArray dst dims mnl offset = .ok ⟨.ok (), x'⟩) {u w : ℕ}
    (square : dims.SquareAt m k u w) :
    (x'.toArray.extract (offset + (mnl + w)) (offset + (mnl + w + triangle k))).size =
        triangle k ∧
      AgreeTo (triangle k)
        (entries (x'.toArray.extract (offset + (mnl + w)) (offset + (mnl + w + triangle k))))
        ((ConeBlock.semidefinite k).packed (shift (mnl + u) (entries x.toArray))) := by
  obtain ⟨rfl, rfl⟩ := square.eq (by omega)
  have hroom : total (dims.blocks.take m) ConeBlock.packedSize + triangle k ≤ dims.packedSize :=
    ConeDims.total_take_add_le square.block ConeBlock.packedSize
  generalize hw : total (dims.blocks.take m) ConeBlock.packedSize = w at hroom ⊢
  have hsize : (x'.toArray.extract (offset + (mnl + w))
      (offset + (mnl + w + triangle k))).size = triangle k := by
    rw [Array.size_extract, x'.size_toArray]
    omega
  refine ⟨hsize, fun t ht => ?_⟩
  have hwindow := packedVector_of_pack fits room addressed packed (mnl + w + t) (by omega)
  rw [shift_apply, ← Nat.add_assoc] at hwindow
  rw [Vec.entries_extract _ (by rwa [hsize]), hwindow, ← hw]
  exact packedVector_square square.block mnl (entries x.toArray) t ht

/-- Packed, two symmetric blocks have the trace product of their matrices. -/
theorem dot_square {x y : Vector ℝ (mnl + dims.unpackedSize)} {dst dst' x' y' : Vector ℝ e}
    (symmetric_x : SymmetricBlocks dims.s (shift (mnl + dims.linearSize) (entries x.toArray)))
    (symmetric_y : SymmetricBlocks dims.s (shift (mnl + dims.linearSize) (entries y.toArray)))
    (packed_x : pack x.toArray dst dims mnl offset = .ok ⟨.ok (), x'⟩)
    (packed_y : pack y.toArray dst' dims mnl offset = .ok ⟨.ok (), y'⟩) {u w : ℕ}
    (square : dims.SquareAt m k u w) :
    Vec.dot (x'.toArray.extract (offset + (mnl + w)) (offset + (mnl + w + triangle k)))
        (y'.toArray.extract (offset + (mnl + w)) (offset + (mnl + w + triangle k))) =
      ((squarePart k (shift (mnl + u) (entries x.toArray))).transpose *
        squarePart k (shift (mnl + u) (entries y.toArray))).trace := by
  obtain ⟨hsize, hx⟩ := entries_packedSquare fits room addressed packed_x square
  obtain ⟨hsize', hy⟩ := entries_packedSquare fits room addressed packed_y square
  obtain ⟨rfl, -⟩ := square.eq (by omega)
  rw [Vec.dot_eq_sum_range (hsize.trans hsize'.symm), hsize,
    symmetric_x.squarePart_eq square.block, symmetric_y.squarePart_eq square.block]
  generalize shift (mnl + total (dims.blocks.take m) ConeBlock.unpackedSize) (entries x.toArray) =
    X at hx ⊢
  generalize shift (mnl + total (dims.blocks.take m) ConeBlock.unpackedSize) (entries y.toArray) =
    Y at hy ⊢
  calc ∑ t ∈ Finset.range (triangle k), _
      = ∑ t ∈ Finset.range (triangle k),
          (ConeBlock.semidefinite k).packed X t * (ConeBlock.semidefinite k).packed Y t :=
        Finset.sum_congr rfl fun t ht => by
          rw [hx t (Finset.mem_range.mp ht), hy t (Finset.mem_range.mp ht)]
    _ = ∑ i ∈ Finset.range (k * k),
          (ConeBlock.semidefinite k).mirror X i * (ConeBlock.semidefinite k).mirror Y i :=
        (ConeBlock.semidefinite k).sum_packed_packed X Y
    _ = ∑ j : Fin k, ∑ i : Fin k, blockMatrix k X i j * blockMatrix k Y i j := by
        rw [sum_square]
        simp only [ConeBlock.mirror_place]
    _ = _ := sum_mul_eq_trace _ _

end

/-- **Packing keeps inner products.**  Two vectors with symmetric semidefinite blocks can be packed
into any buffers with room for them.  The inner product of what was written is that of the vectors.
On every semidefinite block it is the trace product of the two matrices, at the ranges that the
descriptor gives for the block in either layout. -/
theorem pack_keeps_products {offset e : ℕ} (fits : mnl + dims.unpackedSize < Word.limit)
    (room : offset + (mnl + dims.packedSize) ≤ e) (addressed : e < Word.limit)
    {x y : Vector ℝ (mnl + dims.unpackedSize)}
    (symmetric_x : SymmetricBlocks dims.s (shift (mnl + dims.linearSize) (entries x.toArray)))
    (symmetric_y : SymmetricBlocks dims.s (shift (mnl + dims.linearSize) (entries y.toArray)))
    (dst dst' : Vector ℝ e) :
    ∃ x' y', pack x.toArray dst dims mnl offset = .ok ⟨.ok (), x'⟩ ∧
      pack y.toArray dst' dims mnl offset = .ok ⟨.ok (), y'⟩ ∧
      Vec.dot (packedPart dims mnl offset x') (packedPart dims mnl offset y') =
        Vec.dot x.toArray y.toArray ∧
      ∀ m k, dims.blocks[m]? = some (.semidefinite k) → ∃ u w, dims.SquareAt m k u w ∧
        Vec.dot (x'.toArray.extract (offset + (mnl + w)) (offset + (mnl + w + triangle k)))
            (y'.toArray.extract (offset + (mnl + w)) (offset + (mnl + w + triangle k))) =
          ((squarePart k (shift (mnl + u) (entries x.toArray))).transpose *
            squarePart k (shift (mnl + u) (entries y.toArray))).trace := by
  have packed_x := pack_eq_ok fits room addressed x dst
  have packed_y := pack_eq_ok fits room addressed y dst'
  refine ⟨_, _, packed_x, packed_y, ?_, fun m k block => ?_⟩
  · rw [dot_packedPart fits room addressed packed_x packed_y,
      dot_of_symmetric symmetric_x.mirroredVector symmetric_y.mirroredVector]
  · have square := ConeDims.squareAt_of_block (show dims.unpackedSize < Word.limit by omega) block
    exact ⟨_, _, square,
      dot_square fits room addressed symmetric_x symmetric_y packed_x packed_y square⟩

/-- The mixed vector, packed twice at the third place of a buffer. -/
theorem pack_keeps_products_mixed :
    1 + mixedCone.unpackedSize < Word.limit ∧ 2 + (1 + mixedCone.packedSize) ≤ 10 ∧
    10 < Word.limit ∧
    SymmetricBlocks mixedCone.s (shift (1 + mixedCone.linearSize) (entries mixedVector.toArray)) ∧
    ∃ x' y', pack mixedVector.toArray (Vector.replicate 10 0) mixedCone 1 2 = .ok ⟨.ok (), x'⟩ ∧
      pack mixedVector.toArray (Vector.replicate 10 1) mixedCone 1 2 = .ok ⟨.ok (), y'⟩ ∧
      Vec.dot (packedPart mixedCone 1 2 x') (packedPart mixedCone 1 2 y') =
        Vec.dot mixedVector.toArray mixedVector.toArray := by
  have room : 2 + (1 + mixedCone.packedSize) ≤ 10 := by decide
  have addressed : 10 < Word.limit := by decide
  obtain ⟨x', y', hx, hy, hdot, -⟩ := pack_keeps_products mixedCone_fits room addressed
    symmetricBlocks_mixedVector symmetricBlocks_mixedVector (Vector.replicate 10 0)
    (Vector.replicate 10 1)
  exact ⟨mixedCone_fits, room, addressed, symmetricBlocks_mixedVector, x', y', hx, hy, hdot⟩

end ConicSaddle
