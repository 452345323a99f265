import Mathlib.Tactic.FinCases
import ConicSaddle.Proofs.Cone.Packing
import ConicSaddle.Proofs.Exact.Layout
import ConicSaddle.Proofs.Exact.Reflection
import ConicSaddle.Proofs.Scaling.Visible

/-!
# Packing and unpacking undo each other

In exact arithmetic a vector whose semidefinite blocks are symmetric is had back from its packed
layout, and a packed layout is had back from the vector that it stands for.

* `SymmetricBlocks.mirroredVector`: mirroring leaves a vector with symmetric blocks alone;
* `unpackedVector_packedVector`, `packedVector_unpackedVector`: the two layouts, block by block;
* `sum_packedVector_mul`, `dot_packedPart`: packing a whole vector keeps inner products;
* `pack_unpack_inverse`: the calls on arrays, at any offset.
-/

namespace ConicSaddle

open ConeDims (total)
open Vec (entries)

/-! ### Symmetric blocks -/

/-- Symmetric blocks of the given orders are their own mirror images. -/
theorem SymmetricBlocks.mirror {orders : List ℕ} {z : ℕ → ℝ} (h : SymmetricBlocks orders z) :
    AgreeTo (total (orders.map .semidefinite) ConeBlock.unpackedSize)
      (blockwise ConeBlock.unpackedSize ConeBlock.unpackedSize ConeBlock.mirror
        (orders.map .semidefinite) z) z := by
  induction orders generalizing z with
  | nil =>
    intro i hi
    exact absurd hi (Nat.not_lt_zero i)
  | cons k orders ih =>
    have hblock : AgreeTo (k * k) ((ConeBlock.semidefinite k).mirror z) z := by
      refine forall_place fun i j => ?_
      rw [ConeBlock.mirror_place, blockMatrix, lowerPlace]
      split
      · rfl
      · exact h.1 j i
    intro i hi
    rw [List.map_cons, ConeDims.total_cons] at hi
    rw [List.map_cons]
    by_cases hik : i < (ConeBlock.semidefinite k).unpackedSize
    · rw [blockwise_of_lt hik]
      exact hblock i hik
    · obtain ⟨j, rfl⟩ := Nat.exists_eq_add_of_le (Nat.le_of_not_lt hik)
      rw [blockwise_cons_add]
      exact ih h.2 j (by omega)

theorem mirroredVector_eq (dims : ConeDims) (mnl : ℕ) (x : ℕ → ℝ) (i : ℕ) :
    mirroredVector dims mnl x i = if i < mnl + dims.linearSize then x i
      else blockwise ConeBlock.unpackedSize ConeBlock.unpackedSize ConeBlock.mirror
        (dims.s.map .semidefinite) (shift (mnl + dims.linearSize) x)
        (i - (mnl + dims.linearSize)) := by
  unfold mirroredVector
  rw [ConeDims.layout_eq, blockwise_append_of_eq, ConeDims.total_front]
  · exact fun _ _ => rfl
  · intro b hb y
    have hflat := ConeDims.isFlat_of_mem_front hb
    cases b with
    | semidefinite k => exact hflat.elim
    | nonnegative l => rfl
    | secondOrder q => rfl

/-- Mirroring leaves a vector with symmetric blocks alone. -/
theorem SymmetricBlocks.mirroredVector {dims : ConeDims} {mnl : ℕ} {x : ℕ → ℝ}
    (h : SymmetricBlocks dims.s (shift (mnl + dims.linearSize) x)) :
    AgreeTo (mnl + dims.unpackedSize) (mirroredVector dims mnl x) x := by
  intro i hi
  rw [mirroredVector_eq]
  split
  · rfl
  · next hge =>
    have htotal : total (dims.s.map .semidefinite) ConeBlock.unpackedSize =
        total dims.s fun k => k * k := ConeDims.total_map _ _ _
    rw [dims.unpackedSize_eq] at hi
    rw [h.mirror _ (by omega), shift_apply, Nat.add_sub_cancel' (Nat.le_of_not_lt hge)]

/-! ### The two layouts -/

/-- Unpacking undoes packing, up to what stood above the diagonals. -/
theorem unpackedVector_packedVector (dims : ConeDims) (mnl : ℕ) (x : ℕ → ℝ) :
    AgreeTo (mnl + dims.unpackedSize) (unpackedVector dims mnl (packedVector dims mnl x))
      (mirroredVector dims mnl x) := by
  rw [← dims.total_layout]
  exact blockwise_comp ConeBlock.isLocal_unpacked (fun b _ x => b.unpacked_packed x) x

/-- Packing undoes unpacking. -/
theorem packedVector_unpackedVector (dims : ConeDims) (mnl : ℕ) (y : ℕ → ℝ) :
    AgreeTo (mnl + dims.packedSize) (packedVector dims mnl (unpackedVector dims mnl y)) y := by
  rw [← dims.total_layout_packed]
  intro t ht
  calc packedVector dims mnl (unpackedVector dims mnl y) t
      = blockwise ConeBlock.packedSize ConeBlock.packedSize (fun _ y => y) (dims.layout mnl) y t :=
        blockwise_comp ConeBlock.isLocal_packed (fun b _ y => b.packed_unpacked y) y t ht
    _ = y t := blockwise_self ConeBlock.packedSize (dims.layout mnl) y t ht

theorem packedVector_congr {dims : ConeDims} {mnl : ℕ} {x y : ℕ → ℝ}
    (h : AgreeTo (mnl + dims.unpackedSize) x y) :
    AgreeTo (mnl + dims.packedSize) (packedVector dims mnl x) (packedVector dims mnl y) := by
  rw [← dims.total_layout] at h
  rw [← dims.total_layout_packed]
  exact blockwise_congr (fun b _ x y hxy => ConeBlock.isLocal_packed b x y hxy) h

theorem unpackedVector_congr {dims : ConeDims} {mnl : ℕ} {x y : ℕ → ℝ}
    (h : AgreeTo (mnl + dims.packedSize) x y) :
    AgreeTo (mnl + dims.unpackedSize) (unpackedVector dims mnl x) (unpackedVector dims mnl y) := by
  rw [← dims.total_layout_packed] at h
  rw [← dims.total_layout]
  exact blockwise_congr (fun b _ x y hxy => ConeBlock.isLocal_unpacked b x y hxy) h

theorem mirroredVector_congr {dims : ConeDims} {mnl : ℕ} {x y : ℕ → ℝ}
    (h : AgreeTo (mnl + dims.unpackedSize) x y) :
    AgreeTo (mnl + dims.unpackedSize) (mirroredVector dims mnl x) (mirroredVector dims mnl y) := by
  rw [← dims.total_layout] at h ⊢
  exact blockwise_congr (fun b _ x y hxy => ConeBlock.isLocal_mirror b x y hxy) h

/-- The inner product of two packed vectors is that of the vectors with mirrored blocks. -/
theorem sum_packedVector_mul (dims : ConeDims) (mnl : ℕ) (x y : ℕ → ℝ) :
    ∑ t ∈ Finset.range (mnl + dims.packedSize),
        packedVector dims mnl x t * packedVector dims mnl y t =
      ∑ i ∈ Finset.range (mnl + dims.unpackedSize),
        mirroredVector dims mnl x i * mirroredVector dims mnl y i := by
  rw [← dims.total_layout, ← dims.total_layout_packed]
  exact sum_blockwise (fun b _ x y => b.sum_packed_packed x y) x y

/-! ### Calls -/

section

variable {dims : ConeDims} {mnl offset e : ℕ} (fits : mnl + dims.unpackedSize < Word.limit)
  (room : offset + (mnl + dims.packedSize) ≤ e) (addressed : e < Word.limit)
include fits room addressed

/-- The buffer that packing leaves. -/
theorem pack_eq_ok (x : Vector ℝ (mnl + dims.unpackedSize)) (dst : Vector ℝ e) :
    pack x.toArray dst dims mnl offset = .ok ⟨.ok (), .ofFn fun i =>
      if offset ≤ i.val ∧ i.val < offset + (mnl + dims.packedSize) then
        packedVector dims mnl (entries x.toArray) (i.val - offset)
      else dst.get i⟩ := by
  obtain ⟨dst', hpack, hentries⟩ : ∃ dst', pack x.toArray dst dims mnl offset =
      .ok ⟨.ok (), dst'⟩ ∧ ∀ i < e, _ :=
    exists_pack (ConeDims.numelUnpacked_of_lt (by omega)) (ConeDims.numelPacked_of_lt (by omega))
      x.size_toArray (by rwa [x.size_toArray]) room (Nat.lt_of_le_of_lt room addressed)
  rw [hpack]
  congr
  refine Vec.ext_entries fun i hi => ?_
  rw [hentries i hi, Vec.entries_ofFn _ hi, Vec.get_eq_entries]

/-- The packed layout in the buffer that packing leaves. -/
theorem packedVector_of_pack {x : Vector ℝ (mnl + dims.unpackedSize)} {dst dst' : Vector ℝ e}
    (packed : pack x.toArray dst dims mnl offset = .ok ⟨.ok (), dst'⟩) :
    AgreeTo (mnl + dims.packedSize) (shift offset (entries dst'.toArray))
      (packedVector dims mnl (entries x.toArray)) := by
  cases (pack_eq_ok fits room addressed x dst).symm.trans packed
  intro t ht
  have hin : offset ≤ offset + t ∧ offset + t < offset + (mnl + dims.packedSize) := by omega
  rw [shift_apply, Vec.entries_ofFn _ (Nat.lt_of_lt_of_le hin.2 room), if_pos hin,
    Nat.add_sub_cancel_left]

/-- The vector that unpacking leaves, whatever it is written over. -/
theorem unpack_eq_ok (y : Vector ℝ e) (z : Vector ℝ (mnl + dims.unpackedSize)) :
    unpack y.toArray z dims mnl offset = .ok ⟨.ok (), .ofFn fun i =>
      unpackedVector dims mnl (shift offset (entries y.toArray)) i⟩ := by
  obtain ⟨z', hunpack, hentries⟩ := exists_unpack y.toArray z
    (ConeDims.numelUnpacked_of_lt (by omega)) (ConeDims.numelPacked_of_lt (by omega)) rfl fits
    (by rwa [y.size_toArray]) (Nat.lt_of_le_of_lt room addressed)
  rw [hunpack]
  congr
  refine Vec.ext_entries fun i hi => ?_
  rw [hentries i hi, Vec.entries_ofFn _ hi]

/-- A vector with symmetric blocks is had back. -/
theorem unpack_pack {x : Vector ℝ (mnl + dims.unpackedSize)} {dst dst' : Vector ℝ e}
    (symmetric : SymmetricBlocks dims.s (shift (mnl + dims.linearSize) (entries x.toArray)))
    (packed : pack x.toArray dst dims mnl offset = .ok ⟨.ok (), dst'⟩)
    (z : Vector ℝ (mnl + dims.unpackedSize)) :
    unpack dst'.toArray z dims mnl offset = .ok ⟨.ok (), x⟩ := by
  have hwindow := packedVector_of_pack fits room addressed packed
  rw [unpack_eq_ok fits room addressed]
  congr
  refine Vec.ext_entries fun i hi => ?_
  rw [Vec.entries_ofFn _ hi]
  calc unpackedVector dims mnl _ i
      = unpackedVector dims mnl (packedVector dims mnl (entries x.toArray)) i :=
        unpackedVector_congr hwindow i hi
    _ = mirroredVector dims mnl (entries x.toArray) i :=
        unpackedVector_packedVector dims mnl _ i hi
    _ = entries x.toArray i := symmetric.mirroredVector i hi

/-- A buffer is had back. -/
theorem pack_unpack {y : Vector ℝ e} {z x : Vector ℝ (mnl + dims.unpackedSize)}
    (unpacked : unpack y.toArray z dims mnl offset = .ok ⟨.ok (), x⟩) :
    pack x.toArray y dims mnl offset = .ok ⟨.ok (), y⟩ := by
  cases (unpack_eq_ok fits room addressed y z).symm.trans unpacked
  have hvector : AgreeTo (mnl + dims.unpackedSize)
      (entries (Vector.ofFn fun i : Fin (mnl + dims.unpackedSize) =>
        unpackedVector dims mnl (shift offset (entries y.toArray)) i).toArray)
      (unpackedVector dims mnl (shift offset (entries y.toArray))) :=
    fun i hi => Vec.entries_ofFn _ hi
  rw [pack_eq_ok fits room addressed]
  congr
  refine Vec.ext_entries fun i hi => ?_
  rw [Vec.entries_ofFn _ hi]
  split
  · next h =>
    have hin : offset ≤ i ∧ i < offset + (mnl + dims.packedSize) := h
    have ht : i - offset < mnl + dims.packedSize := by omega
    rw [packedVector_congr hvector _ ht, packedVector_unpackedVector dims mnl _ _ ht, shift_apply,
      Nat.add_sub_cancel' hin.1]
  · exact Vec.get_eq_entries y hi

end

/-- The entries of a buffer that hold a packed layout. -/
def packedPart (dims : ConeDims) (mnl offset : ℕ) {e : ℕ} (dst : Vector ℝ e) : Array ℝ :=
  dst.toArray.extract offset (offset + (mnl + dims.packedSize))

/-- The inner product of two vectors after packing is that of the vectors with mirrored blocks. -/
theorem dot_packedPart {dims : ConeDims} {mnl offset e : ℕ}
    (fits : mnl + dims.unpackedSize < Word.limit)
    (room : offset + (mnl + dims.packedSize) ≤ e) (addressed : e < Word.limit)
    {x y : Vector ℝ (mnl + dims.unpackedSize)} {dst dst' x' y' : Vector ℝ e}
    (hx : pack x.toArray dst dims mnl offset = .ok ⟨.ok (), x'⟩)
    (hy : pack y.toArray dst' dims mnl offset = .ok ⟨.ok (), y'⟩) :
    Vec.dot (packedPart dims mnl offset x') (packedPart dims mnl offset y') =
      ∑ i ∈ Finset.range (mnl + dims.unpackedSize),
        mirroredVector dims mnl (entries x.toArray) i *
          mirroredVector dims mnl (entries y.toArray) i := by
  have hsize : ∀ z : Vector ℝ e, (packedPart dims mnl offset z).size = mnl + dims.packedSize := by
    intro z
    rw [packedPart, Array.size_extract, z.size_toArray]
    omega
  have hpart : ∀ {z z' : Vector ℝ e} {x : Vector ℝ (mnl + dims.unpackedSize)},
      pack x.toArray z dims mnl offset = .ok ⟨.ok (), z'⟩ → ∀ t < mnl + dims.packedSize,
        entries (packedPart dims mnl offset z') t =
          packedVector dims mnl (entries x.toArray) t := by
    intro z z' x hpack t ht
    rw [packedPart, Vec.entries_extract _ (by rwa [← hsize z'] at ht)]
    exact packedVector_of_pack fits room addressed hpack t ht
  rw [Vec.dot_eq_sum_range ((hsize x').trans (hsize y').symm), hsize, ← sum_packedVector_mul]
  refine Finset.sum_congr rfl fun t ht => ?_
  have hlt := Finset.mem_range.mp ht
  rw [hpart hx t hlt, hpart hy t hlt]

/-- The inner product of two vectors that mirroring leaves alone. -/
theorem dot_of_symmetric {dims : ConeDims} {mnl : ℕ} {x y : Vector ℝ (mnl + dims.unpackedSize)}
    (hx : AgreeTo (mnl + dims.unpackedSize) (mirroredVector dims mnl (entries x.toArray))
      (entries x.toArray))
    (hy : AgreeTo (mnl + dims.unpackedSize) (mirroredVector dims mnl (entries y.toArray))
      (entries y.toArray)) :
    Vec.dot x.toArray y.toArray = ∑ i ∈ Finset.range (mnl + dims.unpackedSize),
      mirroredVector dims mnl (entries x.toArray) i *
        mirroredVector dims mnl (entries y.toArray) i := by
  rw [Vec.dot_eq_sum_range (x.size_toArray.trans y.size_toArray.symm), x.size_toArray]
  refine Finset.sum_congr rfl fun i hi => ?_
  rw [hx i (Finset.mem_range.mp hi), hy i (Finset.mem_range.mp hi)]

/-- **Packing and unpacking undo each other.**  Let a buffer of length `e` have room for a packed
layout at an offset.

* A vector with symmetric semidefinite blocks can be packed into any buffer, and is had back by
  unpacking, whatever it is written over.
* A buffer that was unpacked can be packed again over itself, and then is as before.
* Packing changes no entry outside the packed layout, whatever is packed and however it ends.
* Unpacking has one result for a buffer, over whatever vector, and its blocks are symmetric. -/
theorem pack_unpack_inverse {dims : ConeDims} {mnl offset e : ℕ}
    (fits : mnl + dims.unpackedSize < Word.limit)
    (room : offset + (mnl + dims.packedSize) ≤ e) (addressed : e < Word.limit) :
    (∀ (x : Vector ℝ (mnl + dims.unpackedSize)) (dst : Vector ℝ e),
      SymmetricBlocks dims.s (shift (mnl + dims.linearSize) (entries x.toArray)) →
      ∃ dst', pack x.toArray dst dims mnl offset = .ok ⟨.ok (), dst'⟩ ∧
        ∀ z, unpack dst'.toArray z dims mnl offset = .ok ⟨.ok (), x⟩) ∧
    (∀ (y : Vector ℝ e) (z : Vector ℝ (mnl + dims.unpackedSize)),
      ∃ x, unpack y.toArray z dims mnl offset = .ok ⟨.ok (), x⟩ ∧
        pack x.toArray y dims mnl offset = .ok ⟨.ok (), y⟩) ∧
    (∀ (src : Array ℝ) (dst : Vector ℝ e) reply, pack src dst dims mnl offset = .ok reply →
      ∀ i < e, i < offset ∨ offset + (mnl + dims.packedSize) ≤ i →
        entries reply.state.toArray i = entries dst.toArray i) ∧
    ∀ y : Vector ℝ e, ∃ x : Vector ℝ (mnl + dims.unpackedSize),
      SymmetricBlocks dims.s (shift (mnl + dims.linearSize) (entries x.toArray)) ∧
      ∀ z, unpack y.toArray z dims mnl offset = .ok ⟨.ok (), x⟩ := by
  refine ⟨?_, ?_, ?_, ?_⟩
  · intro x dst symmetric
    have packed := pack_eq_ok fits room addressed x dst
    exact ⟨_, packed, unpack_pack fits room addressed symmetric packed⟩
  · intro y z
    have unpacked := unpack_eq_ok fits room addressed y z
    exact ⟨_, unpacked, pack_unpack fits room addressed unpacked⟩
  · intro src dst reply packed i hi outside
    exact entries_of_pack packed hi outside
  · intro y
    refine ⟨_, ?_, unpack_eq_ok fits room addressed y⟩
    refine SymmetricBlocks.congr (symmetricBlocks_unpackedVector dims mnl
      (shift offset (entries y.toArray))) fun i hi => ?_
    have htotal : i < total dims.s fun k => k * k := by rwa [ConeDims.total_map] at hi
    have hsize := dims.unpackedSize_eq
    rw [shift_apply, shift_apply, Vec.entries_ofFn _ (by omega)]

/-! ### One block of each kind -/

/-- An orthant of dimension one, a second order cone of dimension two and the semidefinite cone of
order two. -/
def mixedCone : ConeDims := ⟨1, [2], [2], by simp⟩

theorem mixedCone_fits : 1 + mixedCone.unpackedSize < Word.limit := by decide

/-- A vector of the mixed cone with one nonlinear constraint, whose semidefinite block is
symmetric. -/
def mixedVector : Vector ℝ (1 + mixedCone.unpackedSize) := ⟨#[1, -1, 1, -1, 1, -1, -1, 0], rfl⟩

theorem symmetricBlocks_mixedVector :
    SymmetricBlocks mixedCone.s
      (shift (1 + mixedCone.linearSize) (entries mixedVector.toArray)) := by
  refine ⟨fun i j => ?_, trivial⟩
  fin_cases i <;> fin_cases j <;> rfl

/-- The vector packed at the third place of a buffer of ten zeros, and had back. -/
theorem pack_unpack_inverse_mixed :
    1 + mixedCone.unpackedSize < Word.limit ∧ 2 + (1 + mixedCone.packedSize) ≤ 10 ∧
    10 < Word.limit ∧
    ∃ dst', pack mixedVector.toArray (Vector.replicate 10 0) mixedCone 1 2 = .ok ⟨.ok (), dst'⟩ ∧
      ∀ z, unpack dst'.toArray z mixedCone 1 2 = .ok ⟨.ok (), mixedVector⟩ := by
  have room : 2 + (1 + mixedCone.packedSize) ≤ 10 := by decide
  have addressed : 10 < Word.limit := by decide
  exact ⟨mixedCone_fits, room, addressed, (pack_unpack_inverse mixedCone_fits room addressed).1
    mixedVector _ symmetricBlocks_mixedVector⟩

end ConicSaddle
