import ConicSaddle.Proofs.Nan.Sums
import ConicSaddle.Proofs.Scaling.Action

/-!
# A NaN in a scaled vector

The action of `W⁻ᵀ` on a vector hands a NaN on, from the vector or from the scaling, block by block,
and so does packing.  Only the strict upper triangles of semidefinite blocks are not looked at.

* `VisibleIn blocks i`: place `i` is looked at;
* `ScalingBlock.Spoilt`: a NaN among what the inverse action of a block uses;
* `ScalingBlock.Acts.seesNaN`: one block, `exists_packed`: its packed layout;
* `EachBlock.exists_packed`: all blocks.
-/

namespace ConicSaddle

open ConeDims (total)
open Scalar (isNaN)
open Vec (entries HasNaN)

variable {α : Type} [Scalar α]

/-! ### What is looked at -/

/-- The place is in one of the blocks, and not above the diagonal of a semidefinite block. -/
def VisibleIn : List ConeBlock → ℕ → Prop
  | [], _ => False
  | b :: blocks, i =>
    if i < b.unpackedSize then b.Visible i else VisibleIn blocks (i - b.unpackedSize)

theorem visibleIn_cons_add {b : ConeBlock} {blocks : List ConeBlock} {i : ℕ} :
    VisibleIn (b :: blocks) (b.unpackedSize + i) ↔ VisibleIn blocks i := by
  show (if _ then _ else _) ↔ _
  rw [if_neg (by omega), Nat.add_sub_cancel_left]

/-- A NaN at a place of the block that is looked at. -/
def ConeBlock.SeesNaN (b : ConeBlock) (x : ℕ → α) : Prop :=
  ∃ i < b.unpackedSize, b.Visible i ∧ isNaN (x i) = true

theorem ConeBlock.SeesNaN.of_place {k : ℕ} {x : ℕ → α} {i j : Fin k} (hji : j ≤ i)
    (h : isNaN (x (i + k * j)) = true) : (semidefinite k).SeesNaN x := by
  refine ⟨i + k * j, Grid.place_lt i j, ?_, h⟩
  show (i.val + k * j.val) / k ≤ (i.val + k * j.val) % k
  rw [place_mod, place_div]
  exact hji

theorem ConeBlock.SeesNaN.exists_place {k : ℕ} {x : ℕ → α} (h : (semidefinite k).SeesNaN x) :
    ∃ i j : Fin k, j ≤ i ∧ isNaN (x (i + k * j)) = true := by
  obtain ⟨t, ht, hvisible, hnan⟩ := h
  refine ⟨⟨t % k, Nat.mod_lt _ (Grid.rows_pos ⟨t, ht⟩)⟩, ⟨t / k, Nat.div_lt_of_lt_mul ht⟩,
    hvisible, ?_⟩
  rw [Nat.mod_add_div]
  exact hnan

variable [NaNRules α]

/-- Packing keeps a NaN that is looked at. -/
theorem ConeBlock.SeesNaN.exists_packed {b : ConeBlock} {x : ℕ → α} (h : b.SeesNaN x) :
    ∃ t < b.packedSize, isNaN (b.packed x t) = true := by
  cases b with
  | nonnegative l =>
    obtain ⟨i, hi, -, hnan⟩ := h
    exact ⟨i, hi, hnan⟩
  | secondOrder q =>
    obtain ⟨i, hi, -, hnan⟩ := h
    exact ⟨i, hi, hnan⟩
  | semidefinite k =>
    obtain ⟨i, j, hji, hnan⟩ := h.exists_place
    have hmem : (i, j) ∈ lowerTriangle k := mem_lowerTriangle.mpr hji
    refine ⟨(lowerTriangle k).idxOf (i, j), ?_, ?_⟩
    · show _ < triangle k
      rw [← length_lowerTriangle]
      exact List.idxOf_lt_length_of_mem hmem
    · rw [packed_idxOf x hmem]
      split
      · exact hnan
      · exact NaNRules.mul_left hnan _

/-! ### One block -/

/-- An inner product from the second place on. -/
theorem Vec.isNaN_dot_tail {x y : Array α} {n i : ℕ} (hx : x.size = n) (hy : y.size = n)
    (hpos : 0 < i) (hi : i < n) (h : isNaN (entries x i) = true ∨ isNaN (entries y i) = true) :
    isNaN (dot (x.extract 1 n) (y.extract 1 n)) = true := by
  have hx' : i - 1 < (x.extract 1 n).size := by
    rw [Array.size_extract]
    omega
  have hy' : i - 1 < (y.extract 1 n).size := by
    rw [Array.size_extract]
    omega
  refine isNaN_dot hx' hy' ?_
  rwa [entries_extract x hx', entries_extract y hy', Nat.add_sub_cancel' hpos]

namespace ScalingBlock

/-- A NaN among what the inverse action of the block uses. -/
def Spoilt : ScalingBlock α → Prop
  | diagonal _ winv => HasNaN winv
  | secondOrder v beta => (∃ x ∈ v, isNaN x = true) ∨ isNaN beta = true
  | semidefinite _ rti => ∃ i j, isNaN (rti.get i j) = true

/-- Every NaN in a second order block is found in the first entry of the image. -/
theorem isNaN_reflectBack {v : Array α} {beta : α} {x z : Vector α v.size}
    (h : reflectBack v beta x = .ok z)
    (hnan : ((∃ a ∈ v, isNaN a = true) ∨ isNaN beta = true) ∨ HasNaN x) :
    0 < v.size ∧ isNaN (entries z.toArray 0) = true := by
  unfold reflectBack at h
  by_cases hpos : 0 < v.size ∧ 0 < v.size
  swap
  · rw [dif_neg hpos] at h
    cases h
  rw [dif_pos hpos] at h
  cases h
  refine ⟨hpos.1, ?_⟩
  rw [Vec.entries_ofFn _ hpos.1, if_pos rfl]
  -- a NaN that is not in the divisor is in the product or in the sum behind the first place
  have hproduct : ∀ i < v.size, isNaN (entries v i) = true ∨ isNaN (entries x.toArray i) = true →
      isNaN (v[0] * x[0] - Vec.dot (v.extract 1 v.size) (x.toArray.extract 1 v.size)) = true := by
    intro i hi h
    rcases Nat.eq_zero_or_pos i with rfl | hi'
    · apply NaNRules.sub_left
      rw [Vec.entries_of_lt hi, Vec.entries_of_lt (by rwa [x.size_toArray])] at h
      rcases h with h | h
      · exact NaNRules.mul_left h _
      · exact NaNRules.mul_right _ h
    · exact NaNRules.sub_right _ (Vec.isNaN_dot_tail rfl x.size_toArray hi' hi h)
  have hfirst : ∀ s : α, isNaN s = true →
      isNaN ((Scalar.ofNat 2 * s * v[0] - x.get ⟨0, hpos.1⟩) / beta) = true := by
    intro s hs
    have hdoubled := NaNRules.mul_left (NaNRules.mul_right (Scalar.ofNat 2) hs) v[0]
    exact NaNRules.div_left (NaNRules.sub_left hdoubled _) _
  rcases hnan with (⟨a, ha, hnan⟩ | hbeta) | ⟨i, hi⟩
  · obtain ⟨i, hi, rfl⟩ := Array.mem_iff_getElem.mp ha
    rw [← Vec.entries_of_lt hi] at hnan
    exact hfirst _ (hproduct i hi (.inl hnan))
  · exact NaNRules.div_right _ hbeta
  · rw [← Vec.entries_get] at hi
    exact hfirst _ (hproduct i i.isLt (.inr hi))

/-- A product with a NaN in the row or in the column. -/
theorem isNaN_storedProduct {k : ℕ} {a b : ℕ → ℕ → α} (old : Grid k k α) {i j : Fin k}
    (l : Fin k) (h : isNaN (a i l) = true ∨ isNaN (b l j) = true) :
    isNaN ((storedProduct a b old).get i j) = true := by
  unfold storedProduct
  rw [Grid.get_ofFn]
  refine isNaN_blend 1 0 _ (isNaN_rowSum l.isLt ?_)
  rcases h with h | h
  · exact NaNRules.mul_left h _
  · exact NaNRules.mul_right _ h

/-- Every NaN in a semidefinite block is found on the diagonal of the image. -/
theorem Congruent.exists_nan {k : ℕ} {R X N : Grid k k α} (h : Congruent R true X N)
    (hnan : (∃ i j, isNaN (R.get i j) = true) ∨ ∃ i j, isNaN (X.get i j) = true) :
    ∃ j, isNaN (N.get j j) = true := by
  obtain ⟨old, rfl⟩ := h
  rw [if_pos rfl]
  rcases hnan with ⟨i, j, hR⟩ | ⟨i, j, hX⟩
  · -- row `j` of `Rᵀ X` is all NaN
    refine ⟨j, isNaN_storedProduct X j (.inl ?_)⟩
    rw [Grid.at_val]
    refine isNaN_storedProduct old i (.inl ?_)
    rw [Grid.at_val]
    exact hR
  · -- column `j` of `Rᵀ X` is all NaN
    refine ⟨j, isNaN_storedProduct X j (.inl ?_)⟩
    rw [Grid.at_val]
    refine isNaN_storedProduct old i (.inr ?_)
    rw [Grid.at_val]
    exact hX

/-- The action of `W⁻ᵀ` hands a NaN on. -/
theorem Acts.seesNaN {block : ScalingBlock α} {x y : ℕ → α} (h : block.Acts ⟨true, true⟩ x y)
    (hnan : block.Spoilt ∨ block.cone.SeesNaN x) : block.cone.SeesNaN y := by
  cases block with
  | diagonal w winv =>
    have himage : ∀ i : Fin _, y i.val = x i.val * winv.get i := h
    rcases hnan with ⟨i, hi⟩ | ⟨i, hi, -, hx⟩
    · refine ⟨i, i.isLt, trivial, ?_⟩
      rw [himage i]
      exact NaNRules.mul_right _ hi
    · refine ⟨i, hi, trivial, ?_⟩
      rw [himage ⟨i, hi⟩]
      exact NaNRules.mul_left hx _
  | secondOrder v beta =>
    obtain ⟨z, hz, hyz⟩ := h
    have hspoilt : ((∃ a ∈ v, isNaN a = true) ∨ isNaN beta = true) ∨
        HasNaN (firstEntries v.size x) := by
      refine hnan.imp_right ?_
      rintro ⟨i, hi, -, hx⟩
      refine ⟨⟨i, hi⟩, ?_⟩
      unfold firstEntries
      rw [Vec.get_ofFn]
      exact hx
    obtain ⟨hpos, hfirst⟩ := isNaN_reflectBack hz hspoilt
    refine ⟨0, hpos, trivial, ?_⟩
    rw [hyz 0 hpos]
    exact hfirst
  | @semidefinite k r rti =>
    obtain ⟨N, hN, hyN⟩ := h
    have hspoilt : (∃ i j, isNaN (rti.get i j) = true) ∨
        ∃ i j, isNaN ((mirroredGrid k x).get i j) = true := by
      refine hnan.imp_right fun hx => ?_
      obtain ⟨i, j, hji, hnan⟩ := hx.exists_place
      refine ⟨i, j, ?_⟩
      unfold mirroredGrid lowerPlace
      rw [Grid.get_ofFn, if_pos hji]
      exact hnan
    obtain ⟨j, hj⟩ := Congruent.exists_nan hN hspoilt
    refine .of_place (Nat.le_refl j.val) ?_
    rw [hyN, Grid.symm, ite_self]
    exact hj

end ScalingBlock

/-! ### All blocks -/

/-- A NaN in a block or at a place that is looked at is found in the packed layout of the image. -/
theorem EachBlock.exists_packed {blocks : List (ScalingBlock α)} {x y : ℕ → α}
    (h : EachBlock ScalingBlock.numel ScalingBlock.numel (ScalingBlock.Acts ⟨true, true⟩)
      blocks x y)
    (hnan : (∃ block ∈ blocks, block.Spoilt) ∨
      ∃ i, VisibleIn (blocks.map ScalingBlock.cone) i ∧ isNaN (x i) = true) :
    ∃ t < total blocks ScalingBlock.packedSize,
      isNaN (blockwise ScalingBlock.numel ScalingBlock.packedSize
        (fun block => block.cone.packed) blocks y t) = true := by
  induction blocks generalizing x y with
  | nil =>
    rcases hnan with ⟨block, hmem, -⟩ | ⟨i, hi, -⟩
    · cases hmem
    · exact hi.elim
  | cons block blocks ih =>
    obtain ⟨hacts, hrest⟩ := h
    -- the NaN is found in the first block or in one of the others
    have hfirst : block.Spoilt ∨ block.cone.SeesNaN x →
        ∃ t < total (block :: blocks) ScalingBlock.packedSize,
          isNaN (blockwise ScalingBlock.numel ScalingBlock.packedSize
            (fun block => block.cone.packed) (block :: blocks) y t) = true := by
      intro hnan
      obtain ⟨t, ht, hpacked⟩ := (hacts.seesNaN hnan).exists_packed
      have hlt : t < block.packedSize := ht
      refine ⟨t, Nat.lt_of_lt_of_le hlt (Nat.le_add_right _ _), ?_⟩
      rw [blockwise_of_lt hlt]
      exact hpacked
    have hlater : ((∃ b ∈ blocks, b.Spoilt) ∨
          ∃ i, VisibleIn (blocks.map ScalingBlock.cone) i ∧ isNaN (x (block.numel + i)) = true) →
        ∃ t < total (block :: blocks) ScalingBlock.packedSize,
          isNaN (blockwise ScalingBlock.numel ScalingBlock.packedSize
            (fun block => block.cone.packed) (block :: blocks) y t) = true := by
      intro hnan
      obtain ⟨t, ht, hpacked⟩ := ih hrest hnan
      refine ⟨block.packedSize + t, Nat.add_lt_add_left ht _, ?_⟩
      rw [blockwise_cons_add]
      exact hpacked
    rcases hnan with ⟨b, hmem, hb⟩ | ⟨i, hi, hx⟩
    · rcases List.mem_cons.mp hmem with rfl | hmem
      · exact hfirst (.inl hb)
      · exact hlater (.inl ⟨b, hmem, hb⟩)
    · rw [List.map_cons] at hi
      rcases Nat.lt_or_ge i block.cone.unpackedSize with hlt | hge
      · have hvisible : if _ then _ else _ := hi
        rw [if_pos hlt] at hvisible
        exact hfirst (.inr ⟨i, hlt, hvisible, hx⟩)
      · obtain ⟨j, rfl⟩ := Nat.exists_eq_add_of_le hge
        rw [ScalingBlock.unpackedSize_cone] at hx
        exact hlater (.inr ⟨j, visibleIn_cons_add.mp hi, hx⟩)

end ConicSaddle
