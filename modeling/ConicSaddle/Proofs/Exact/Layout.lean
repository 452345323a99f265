import Mathlib.Algebra.Module.LinearMap.Basic
import Mathlib.Data.List.GetD
import ConicSaddle.Proofs.Cone.Layout
import ConicSaddle.Proofs.Exact.Scalar

/-!
# Layouts in exact arithmetic

Over the reals the two layouts of a symmetric block have the same inner products, and each layout
can be had back from the other.

* `blockMatrix k x`: the symmetric matrix that a semidefinite block stands for;
* `ConeBlock.sum_packed`: packing keeps inner products;
* `ConeBlock.sum_packed_packed`: so the inner product of two packed blocks is that of the blocks;
* `ConeBlock.unpacked_packed`, `ConeBlock.packed_unpacked`: each undoes the other;
* `ConeBlock.isLinearMap_unpacked`: unpacking is linear.
-/

namespace ConicSaddle

/-- The symmetric matrix whose lower triangle stands in a block, column after column. -/
def blockMatrix (k : ℕ) (x : ℕ → ℝ) : RealMatrix k := fun i j =>
  x ((lowerPlace i j).1 + k * (lowerPlace i j).2)

theorem blockMatrix_transpose (k : ℕ) (x : ℕ → ℝ) :
    (blockMatrix k x).transpose = blockMatrix k x := by
  ext i j
  rw [Matrix.transpose_apply]
  unfold blockMatrix
  rw [lowerPlace_comm]

theorem blockMatrix_congr {k : ℕ} {x y : ℕ → ℝ} (h : AgreeTo (k * k) x y) :
    blockMatrix k x = blockMatrix k y := by
  ext i j
  exact h _ (Grid.place_lt _ _)

/-- A block that holds a symmetric matrix stands for that matrix. -/
theorem blockMatrix_of_entries {k : ℕ} {x : ℕ → ℝ} {M : RealMatrix k} (hM : M.transpose = M)
    (hx : ∀ i j : Fin k, x (i + k * j) = M i j) : blockMatrix k x = M := by
  ext i j
  unfold blockMatrix lowerPlace
  by_cases hij : j ≤ i
  · rw [if_pos hij]
    exact hx i j
  · rw [if_neg hij, hx j i]
    exact congrFun (congrFun hM i) j

/-! ### Sums over a square -/

/-- A sum over a square block is a sum over its columns and rows. -/
theorem sum_square (k : ℕ) (f : ℕ → ℝ) :
    ∑ t ∈ Finset.range (k * k), f t = ∑ j : Fin k, ∑ i : Fin k, f (i + k * j) := by
  rw [Finset.sum_range, ← Equiv.sum_comp finProdFinEquiv, Fintype.sum_prod_type]
  rfl

/-- A sum over mirrored places counts every place below the diagonal twice. -/
theorem sum_lowerPlace {k : ℕ} (f : Fin k × Fin k → ℝ) :
    ∑ j : Fin k, ∑ i : Fin k, f (lowerPlace i j) =
      ∑ p ∈ (lowerTriangle k).toFinset, if p.1 = p.2 then f p else 2 * f p := by
  have hset : (lowerTriangle k).toFinset = Finset.univ.filter fun p => p.2 ≤ p.1 := by
    ext p
    simp only [List.mem_toFinset, mem_lowerTriangle, Finset.mem_filter, Finset.mem_univ, true_and]
  have hpairs : ∑ j : Fin k, ∑ i : Fin k, f (lowerPlace i j) =
      ∑ p : Fin k × Fin k, f (lowerPlace p.1 p.2) := by
    rw [Finset.sum_comm, Fintype.sum_prod_type]
  -- the places above the diagonal are those below it, exchanged
  have habove : ∑ p : Fin k × Fin k with ¬p.2 ≤ p.1, f (lowerPlace p.1 p.2) =
      ∑ p : Fin k × Fin k with p.2 < p.1, f p := by
    refine Finset.sum_nbij' Prod.swap Prod.swap ?_ ?_ (fun _ _ => rfl) (fun _ _ => rfl) ?_
    · intro p hp
      simpa using hp
    · intro p hp
      simpa using hp
    · intro p hp
      have hlt : ¬p.2 ≤ p.1 := (Finset.mem_filter.mp hp).2
      rw [lowerPlace, if_neg hlt]
      rfl
  have hbelow : ∑ p : Fin k × Fin k with p.2 ≤ p.1, f (lowerPlace p.1 p.2) =
      ∑ p : Fin k × Fin k with p.2 ≤ p.1, f p := by
    refine Finset.sum_congr rfl fun p hp => ?_
    rw [lowerPlace, if_pos (Finset.mem_filter.mp hp).2]
  have hstrict : ∑ p : Fin k × Fin k with p.2 < p.1, f p =
      ∑ p : Fin k × Fin k with p.2 ≤ p.1, if p.1 = p.2 then 0 else f p := by
    rw [Finset.sum_filter, Finset.sum_filter]
    refine Finset.sum_congr rfl fun p _ => ?_
    by_cases heq : p.1 = p.2
    · rw [if_neg (by rw [heq]; exact lt_irrefl _), if_pos (le_of_eq heq.symm), if_pos heq]
    · by_cases hle : p.2 ≤ p.1
      · rw [if_pos (lt_of_le_of_ne hle (Ne.symm heq)), if_pos hle, if_neg heq]
      · rw [if_neg fun h => hle h.le, if_neg hle]
  rw [hpairs, ← Finset.sum_filter_add_sum_filter_not Finset.univ fun p : Fin k × Fin k => p.2 ≤ p.1,
    habove, hbelow, hstrict, hset, ← Finset.sum_add_distrib]
  refine Finset.sum_congr rfl fun p _ => ?_
  split
  · rw [add_zero]
  · ring

/-- A sum over the places of a list, in their order. -/
theorem sum_getD_mul {β : Type} [DecidableEq β] [BEq β] [LawfulBEq β] {places : List β}
    (hnodup : places.Nodup) (f : β → ℝ) (v : ℕ → ℝ) :
    ∑ t ∈ Finset.range places.length, (places.map f).getD t 0 * v t =
      ∑ p ∈ places.toFinset, f p * v (places.idxOf p) := by
  symm
  refine Finset.sum_bij (fun p _ => places.idxOf p) ?_ ?_ ?_ ?_
  · intro p hp
    exact Finset.mem_range.mpr (List.idxOf_lt_length_of_mem (List.mem_toFinset.mp hp))
  · intro p hp q hq h
    exact (List.idxOf_inj (List.mem_toFinset.mp hp)).mp h
  · intro t ht
    have hlt := Finset.mem_range.mp ht
    exact ⟨places[t], List.mem_toFinset.mpr (List.getElem_mem hlt), hnodup.idxOf_getElem t hlt⟩
  · intro p hp
    have hlt := List.idxOf_lt_length_of_mem (List.mem_toFinset.mp hp)
    rw [List.getD_eq_getElem _ _ (by rwa [List.length_map]), List.getElem_map,
      List.getElem_idxOf]

namespace ConeBlock

/-! ### Places of a semidefinite block -/

theorem mirror_place {k : ℕ} (x : ℕ → ℝ) (i j : Fin k) :
    (semidefinite k).mirror x (i + k * j) = blockMatrix k x i j := by
  show x (max ((i.val + k * j.val) % k) ((i.val + k * j.val) / k) +
    k * min ((i.val + k * j.val) % k) ((i.val + k * j.val) / k)) = _
  rw [place_mod, place_div]
  unfold blockMatrix lowerPlace
  by_cases hij : j ≤ i
  · rw [if_pos hij, Nat.max_eq_left hij, Nat.min_eq_right hij]
  · have hle : i.val ≤ j.val := le_of_not_ge hij
    rw [if_neg hij, Nat.max_eq_right hle, Nat.min_eq_left hle]

theorem isLocal_mirror :
    IsLocal unpackedSize unpackedSize (mirror : ConeBlock → (ℕ → ℝ) → ℕ → ℝ) := by
  intro b x y h
  cases b with
  | nonnegative l => exact h
  | secondOrder q => exact h
  | semidefinite k =>
    refine forall_place fun i j => ?_
    rw [mirror_place, mirror_place, blockMatrix_congr h]

/-! ### Packing and unpacking -/

/-- Packing keeps inner products: entries off the diagonal stand once in packed layout and twice in
unpacked layout. -/
theorem sum_packed (b : ConeBlock) (x v : ℕ → ℝ) :
    ∑ t ∈ Finset.range b.packedSize, b.packed x t * v t =
      ∑ i ∈ Finset.range b.unpackedSize, b.mirror x i * b.unpacked v i := by
  cases b with
  | nonnegative l => rfl
  | secondOrder q => rfl
  | semidefinite k =>
    show ∑ t ∈ Finset.range (triangle k), _ = ∑ i ∈ Finset.range (k * k), _
    rw [sum_square, ← length_lowerTriangle]
    simp only [mirror_place, unpacked_place]
    rw [show ∑ j : Fin k, ∑ i : Fin k, blockMatrix k x i j * unpackedAt v (lowerPlace i j) = _ from
      sum_lowerPlace fun p => x (p.1 + k * p.2) * unpackedAt v p]
    unfold packed
    rw [sum_getD_mul (nodup_lowerTriangle k)]
    refine Finset.sum_congr rfl fun p _ => ?_
    unfold unpackedAt
    by_cases hp : p.1 = p.2
    · rw [if_pos hp, if_pos hp, if_pos hp]
    · rw [if_neg hp, if_neg hp, if_neg hp]
      -- `√2 = 2 / √2`
      have hroot : (Scalar.rootTwo : ℝ) = 2 * Scalar.invRootTwo := by
        rw [← Exact.rootTwo_mul_rootTwo, mul_assoc, Exact.rootTwo_mul_invRootTwo, mul_one]
      rw [hroot]
      ring

/-- Unpacking undoes packing, up to what stood above the diagonal. -/
theorem unpacked_packed (b : ConeBlock) (x : ℕ → ℝ) :
    AgreeTo b.unpackedSize (b.unpacked (b.packed x)) (b.mirror x) := by
  cases b with
  | nonnegative l => exact fun _ _ => rfl
  | secondOrder q => exact fun _ _ => rfl
  | semidefinite k =>
    refine forall_place fun i j => ?_
    rw [unpacked_place, mirror_place]
    unfold unpackedAt blockMatrix
    rw [packed_idxOf x (lowerPlace_mem i j)]
    by_cases hp : (lowerPlace i j).1 = (lowerPlace i j).2
    · rw [if_pos hp, if_pos hp]
    · rw [if_neg hp, if_neg hp, mul_assoc, Exact.rootTwo_mul_invRootTwo, mul_one]

/-- The inner product of two packed blocks is that of the blocks. -/
theorem sum_packed_packed (b : ConeBlock) (x y : ℕ → ℝ) :
    ∑ t ∈ Finset.range b.packedSize, b.packed x t * b.packed y t =
      ∑ i ∈ Finset.range b.unpackedSize, b.mirror x i * b.mirror y i := by
  rw [sum_packed]
  refine Finset.sum_congr rfl fun i hi => ?_
  rw [b.unpacked_packed y i (Finset.mem_range.mp hi)]

/-- What a packed layout stands for is symmetric. -/
theorem blockMatrix_unpacked {k : ℕ} (v : ℕ → ℝ) (i j : Fin k) :
    blockMatrix k ((semidefinite k).unpacked v) i j = (semidefinite k).unpacked v (i + k * j) := by
  have hmem := mem_lowerTriangle.mp (lowerPlace_mem i j)
  unfold blockMatrix
  rw [unpacked_place, unpacked_place]
  unfold lowerPlace at hmem ⊢
  rw [if_pos hmem]

/-- Mirroring leaves an unpacked block alone. -/
theorem mirror_unpacked (b : ConeBlock) (v : ℕ → ℝ) :
    AgreeTo b.unpackedSize (b.mirror (b.unpacked v)) (b.unpacked v) := by
  cases b with
  | nonnegative l => exact fun _ _ => rfl
  | secondOrder q => exact fun _ _ => rfl
  | semidefinite k =>
    refine forall_place fun i j => ?_
    rw [mirror_place, blockMatrix_unpacked]

/-- Packing undoes unpacking. -/
theorem packed_unpacked (b : ConeBlock) (v : ℕ → ℝ) :
    AgreeTo b.packedSize (b.packed (b.unpacked v)) v := by
  cases b with
  | nonnegative l => exact fun _ _ => rfl
  | secondOrder q => exact fun _ _ => rfl
  | semidefinite k =>
    intro t ht
    have hlt : t < (lowerTriangle k).length := by
      rw [length_lowerTriangle]
      exact ht
    have hmem : (lowerTriangle k)[t] ∈ lowerTriangle k := List.getElem_mem hlt
    have hindex : (lowerTriangle k).idxOf (lowerTriangle k)[t] = t :=
      (nodup_lowerTriangle k).idxOf_getElem t hlt
    have hpacked := packed_idxOf ((semidefinite k).unpacked v) hmem
    rw [hindex] at hpacked
    rw [hpacked, unpacked_place, lowerPlace, if_pos (mem_lowerTriangle.mp hmem), unpackedAt, hindex]
    split
    · rfl
    · rw [mul_assoc, mul_comm Scalar.invRootTwo, Exact.rootTwo_mul_invRootTwo, mul_one]

theorem isLinearMap_unpackedAt {k : ℕ} (p : Fin k × Fin k) :
    IsLinearMap ℝ fun v : ℕ → ℝ => unpackedAt v p where
  map_add x y := by
    unfold unpackedAt
    split
    · rfl
    · exact add_mul _ _ _
  map_smul c x := by
    unfold unpackedAt
    split
    · rfl
    · exact mul_assoc _ _ _

/-- Unpacking is linear. -/
theorem isLinearMap_unpacked (b : ConeBlock) :
    IsLinearMap ℝ (b.unpacked : (ℕ → ℝ) → ℕ → ℝ) := by
  cases b with
  | nonnegative l => exact ⟨fun _ _ => rfl, fun _ _ => rfl⟩
  | secondOrder q => exact ⟨fun _ _ => rfl, fun _ _ => rfl⟩
  | semidefinite k =>
    constructor
    · intro x y
      funext i
      rw [Pi.add_apply]
      simp only [unpacked]
      split
      · exact (isLinearMap_unpackedAt _).map_add x y
      · exact (add_zero 0).symm
    · intro c x
      funext i
      rw [Pi.smul_apply]
      simp only [unpacked]
      split
      · exact (isLinearMap_unpackedAt _).map_smul c x
      · exact (smul_zero c).symm

end ConeBlock

end ConicSaddle
