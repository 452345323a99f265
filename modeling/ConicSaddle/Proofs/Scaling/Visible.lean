import ConicSaddle.Proofs.Nan.Scaling

/-!
# Strict upper triangles of semidefinite blocks

A semidefinite block of a vector is read through its lower triangle and written as a symmetric
matrix, whatever stands above its diagonal before.

* `SameVisible blocks x y`: two sequences agree but for strict upper triangles;
* `ScalingBlock.Acts.of_visible`, `EachBlock.of_visible`: the action of a scaling;
* `SymmetricBlocks orders z`: the blocks of a sequence are symmetric, `symmetricBlocks_unpacked`: a
  vector that was unpacked.
-/

namespace ConicSaddle

open ConeDims (total)

variable {α : Type}

/-! ### Reading -/

/-- The sequences agree at the places that are looked at: in the blocks, and not above the diagonal
of a semidefinite block. -/
def SameVisible (blocks : List ConeBlock) (x y : ℕ → α) : Prop :=
  ∀ i, VisibleIn blocks i → x i = y i

theorem SameVisible.head {b : ConeBlock} {blocks : List ConeBlock} {x y : ℕ → α}
    (h : SameVisible (b :: blocks) x y) {i : ℕ} (hi : i < b.unpackedSize) (hvisible : b.Visible i) :
    x i = y i := by
  apply h
  show if i < b.unpackedSize then _ else _
  rw [if_pos hi]
  exact hvisible

theorem SameVisible.tail {b : ConeBlock} {blocks : List ConeBlock} {x y : ℕ → α}
    (h : SameVisible (b :: blocks) x y) :
    SameVisible blocks (shift b.unpackedSize x) (shift b.unpackedSize y) :=
  fun _ hi => h _ (visibleIn_cons_add.mpr hi)

/-- The grid that a semidefinite block is read as does not depend on its strict upper triangle. -/
theorem mirroredGrid_of_visible {k : ℕ} {x y : ℕ → α}
    (h : ∀ i < k * k, (ConeBlock.semidefinite k).Visible i → x i = y i) :
    mirroredGrid k x = mirroredGrid k y := by
  unfold mirroredGrid
  refine congrArg Grid.ofFn (funext fun i => funext fun j => h _ (Grid.place_lt _ _) ?_)
  show (_ : ℕ) / k ≤ _ % k
  rw [place_mod, place_div]
  exact mem_lowerTriangle.mp (lowerPlace_mem i j)

variable [Scalar α]

/-- A block acts on what it looks at. -/
theorem ScalingBlock.Acts.of_visible {mode : ScalingMode} {block : ScalingBlock α} {x x' y : ℕ → α}
    (h : block.Acts mode x y) (hx : ∀ i < block.numel, block.cone.Visible i → x i = x' i) :
    block.Acts mode x' y := by
  cases block with
  | diagonal w winv => exact h.congr (fun i hi => hx i hi trivial) fun _ _ => rfl
  | secondOrder v beta => exact h.congr (fun i hi => hx i hi trivial) fun _ _ => rfl
  | semidefinite r rti =>
    obtain ⟨N, hN, hy⟩ := h
    rw [mirroredGrid_of_visible hx] at hN
    exact ⟨N, hN, hy⟩

/-- A scaling acts on what it looks at. -/
theorem EachBlock.of_visible {mode : ScalingMode} {blocks : List (ScalingBlock α)}
    {x x' y : ℕ → α}
    (h : EachBlock ScalingBlock.numel ScalingBlock.numel (ScalingBlock.Acts mode) blocks x y)
    (hx : SameVisible (blocks.map ScalingBlock.cone) x x') :
    EachBlock ScalingBlock.numel ScalingBlock.numel (ScalingBlock.Acts mode) blocks x' y := by
  induction blocks generalizing x x' y with
  | nil => exact trivial
  | cons block blocks ih =>
    rw [List.map_cons] at hx
    have htail := hx.tail
    rw [ScalingBlock.unpackedSize_cone] at htail
    refine ⟨h.1.of_visible fun i hi hvisible => hx.head ?_ hvisible, ih h.2 htail⟩
    rwa [ScalingBlock.unpackedSize_cone]

/-! ### Writing -/

omit [Scalar α] in
/-- The sequence begins with square blocks of the orders, each of them a symmetric matrix. -/
def SymmetricBlocks : List ℕ → (ℕ → α) → Prop
  | [], _ => True
  | k :: orders, z =>
    (∀ i j : Fin k, z (i + k * j) = z (j + k * i)) ∧ SymmetricBlocks orders (shift (k * k) z)

omit [Scalar α] in
theorem SymmetricBlocks.congr {orders : List ℕ} {z z' : ℕ → α} (h : SymmetricBlocks orders z)
    (hz : AgreeTo (total (orders.map .semidefinite) ConeBlock.unpackedSize) z z') :
    SymmetricBlocks orders z' := by
  induction orders generalizing z z' with
  | nil => exact trivial
  | cons k orders ih =>
    rw [List.map_cons, ConeDims.total_cons] at hz
    refine ⟨fun i j => ?_, ih h.2 hz.shift⟩
    have hblock := hz.mono (Nat.le_add_right (k * k) _)
    rw [← hblock _ (Grid.place_lt i j), ← hblock _ (Grid.place_lt j i)]
    exact h.1 i j

/-- Blocks that were unpacked are symmetric. -/
theorem symmetricBlocks_unpacked (orders : List ℕ) (v : ℕ → α) :
    SymmetricBlocks orders (blockwise ConeBlock.packedSize ConeBlock.unpackedSize
      ConeBlock.unpacked (orders.map .semidefinite) v) := by
  induction orders generalizing v with
  | nil => exact trivial
  | cons k orders ih =>
    have hblock : ∀ i j : Fin k, blockwise ConeBlock.packedSize ConeBlock.unpackedSize
        ConeBlock.unpacked ((k :: orders).map .semidefinite) v (i + k * j) =
          ConeBlock.unpackedAt v (lowerPlace i j) := by
      intro i j
      have hlt : i + k * j < (ConeBlock.semidefinite k).unpackedSize := Grid.place_lt i j
      rw [List.map_cons, blockwise_of_lt hlt, ConeBlock.unpacked_place]
    have hrest : shift (k * k) (blockwise ConeBlock.packedSize ConeBlock.unpackedSize
        ConeBlock.unpacked ((k :: orders).map .semidefinite) v) =
          blockwise ConeBlock.packedSize ConeBlock.unpackedSize ConeBlock.unpacked
            (orders.map .semidefinite) (shift (triangle k) v) :=
      shift_blockwise_cons (t := ConeBlock.unpackedSize) (b := .semidefinite k)
    constructor
    · intro i j
      rw [hblock, hblock, lowerPlace_comm]
    · rw [hrest]
      exact ih _

/-- The semidefinite part of a vector that was unpacked is symmetric. -/
theorem symmetricBlocks_unpackedVector (dims : ConeDims) (mnl : ℕ) (v : ℕ → α) :
    SymmetricBlocks dims.s (shift (mnl + dims.linearSize) (unpackedVector dims mnl v)) := by
  have hshift : shift (mnl + dims.linearSize) (unpackedVector dims mnl v) =
      blockwise ConeBlock.packedSize ConeBlock.unpackedSize ConeBlock.unpacked
        (dims.s.map .semidefinite) (shift (mnl + dims.linearSize) v) := by
    funext i
    rw [shift_apply, unpackedVector_eq, if_neg (by omega), Nat.add_sub_cancel_left]
  rw [hshift]
  exact symmetricBlocks_unpacked dims.s _

end ConicSaddle
