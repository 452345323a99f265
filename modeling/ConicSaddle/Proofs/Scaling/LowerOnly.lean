import ConicSaddle.Proofs.Scaling.Shapes
import ConicSaddle.Proofs.Scaling.Visible
import ConicSaddle.Proofs.Scaling.Workspace

/-!
# What a scaled vector depends on

A scaled vector does not depend on what the workspace holds, nor on what stands above the diagonals
of the semidefinite blocks that are scaled, and its own semidefinite blocks are symmetric.

* `Scaling.accepts_of_scale`: what is known once a vector was scaled;
* `EachBlock.symmetricBlocks`: the semidefinite blocks behind all others, after each was written;
* `Scaling.scale_lower_only`: two calls whose vectors have the same lower triangles.
-/

namespace ConicSaddle

open ConeDims (total)
open Vec (entries)

variable {α : Type} [Scalar α]

/-- A semidefinite block is written as a symmetric matrix. -/
theorem ScalingBlock.Acts.symmetric {mode : ScalingMode} {k : ℕ} {r rti : Grid k k α}
    {x y : ℕ → α} (h : (semidefinite r rti).Acts mode x y) (i j : Fin k) :
    y (i + k * j) = y (j + k * i) := by
  obtain ⟨N, -, hy⟩ := h
  rw [hy, hy, Grid.symm_comm]

/-- The semidefinite blocks are symmetric after each block was written, whatever stands in front. -/
theorem EachBlock.symmetricBlocks {mode : ScalingMode} {front : List ConeBlock} {orders : List ℕ}
    {blocks : List (ScalingBlock α)} {x y : ℕ → α}
    (hcones : blocks.map ScalingBlock.cone = front ++ orders.map .semidefinite)
    (h : EachBlock ScalingBlock.numel ScalingBlock.numel (ScalingBlock.Acts mode) blocks x y) :
    SymmetricBlocks orders (shift (total front ConeBlock.unpackedSize) y) := by
  induction blocks generalizing front orders x y with
  | nil =>
    obtain ⟨rfl, horders⟩ := List.append_eq_nil_iff.mp hcones.symm
    obtain rfl := List.map_eq_nil_iff.mp horders
    trivial
  | cons block blocks ih =>
    rw [List.map_cons] at hcones
    cases front with
    | cons b front =>
      obtain ⟨hblock, hrest⟩ := List.cons.inj hcones
      have hsize : b.unpackedSize = block.numel := by rw [← hblock, block.unpackedSize_cone]
      rw [ConeDims.total_cons, hsize, ← shift_shift]
      exact ih hrest h.2
    | nil =>
      show SymmetricBlocks orders (shift 0 y)
      rw [shift_zero]
      cases orders with
      | nil => trivial
      | cons k orders =>
        obtain ⟨hblock, hrest⟩ := List.cons.inj hcones
        cases block with
        | diagonal w winv => cases hblock
        | secondOrder v beta => cases hblock
        | semidefinite r rti =>
          obtain rfl := ConeBlock.semidefinite.inj hblock
          have hbehind := @ih [] orders _ _ hrest h.2
          rw [show total [] ConeBlock.unpackedSize = 0 from rfl, shift_zero] at hbehind
          exact ⟨h.1.symmetric, hbehind⟩

namespace Scaling

variable {W : Scaling α} {dims : ConeDims} {mnl d : ℕ} {mode : ScalingMode}

/-- If a vector was scaled, then all shapes match and the length of a vector is a machine word. -/
theorem accepts_of_scale {x y : Vector α d} {work after : Workspace α}
    (h : W.scale x dims mnl mode work = .ok ⟨.ok (), (y, after)⟩) :
    mnl + dims.unpackedSize < Word.limit ∧ W.Accepts dims mnl d work.order := by
  unfold scale at h
  cases hdims : W.checkDims dims mnl with
  | error e =>
    rw [hdims] at h
    cases h
  | ok u =>
    simp only [hdims, Checked.bind_eq_ok] at h
    obtain ⟨u, hu, expected, hexpected, h⟩ := h
    obtain ⟨rfl, hlimit⟩ := Word.add_eq_ok hexpected
    obtain rfl := ConeDims.numelUnpacked_eq_ok hu
    cases hlength : checkLength "x" d (mnl + dims.unpackedSize) with
    | error e =>
      rw [hlength] at h
      cases h
    | ok u =>
      rw [hlength] at h
      refine ⟨hlimit, checkDims_eq_ok.mp hdims, checkLength_eq_ok.mp hlength,
        ConeDims.maxOrder_le_iff.mp (Nat.not_lt.mp ?_)⟩
      intro hsmall
      simp only [if_pos hsmall] at h
      cases h

/-- **A scaled vector depends on lower triangles only.**  If a vector was scaled, then a vector that
agrees with it but for strict upper triangles of semidefinite blocks is scaled to the same vector,
in any workspace with room for the largest block, whatever the two workspaces hold; and every
semidefinite block of the result is symmetric. -/
theorem scale_lower_only [ZeroRule α] {x x' y : Vector α d} {work work' after : Workspace α}
    (scaled : W.scale x dims mnl mode work = .ok ⟨.ok (), (y, after)⟩)
    (visible : SameVisible (dims.layout mnl) (entries x.toArray) (entries x'.toArray))
    (room : ∀ k ∈ dims.s, k ≤ work'.order) :
    (∃ after', W.scale x' dims mnl mode work' = .ok ⟨.ok (), (y, after')⟩) ∧
      SymmetricBlocks dims.s (shift (mnl + dims.linearSize) (entries y.toArray)) := by
  obtain ⟨hlimit, hfits, hlength, hroom⟩ := accepts_of_scale scaled
  obtain ⟨blocks, hblocks⟩ := hfits.exists_blocks_eq_ok
  have hcount : dims.numelUnpacked = .ok dims.unpackedSize :=
    ConeDims.numelUnpacked_of_lt (Nat.lt_of_le_of_lt (Nat.le_add_left _ mnl) hlimit)
  have hcones := hfits.map_cone hblocks
  -- each call leaves the action of every block on its slice, and the action is determined
  have hscale : ∀ (z : Vector α d) (w : Workspace α), (∀ k ∈ dims.s, k ≤ w.order) →
      ∃ y w', W.scale z dims mnl mode w = .ok ⟨.ok (), (y, w')⟩ ∧
        EachBlock ScalingBlock.numel ScalingBlock.numel (ScalingBlock.Acts mode) blocks
          (entries z.toArray) (entries y.toArray) := by
    intro z w hw
    obtain ⟨y, w', hy, -, heach⟩ := exists_scale (checkDims_eq_ok.mpr hfits) hblocks hcount hlength
      (hlength ▸ hlimit) mode z w (ConeDims.maxOrder_le_iff.mpr hw)
    exact ⟨y, w', hy, heach⟩
  obtain ⟨y₁, w₁, hy₁, heach⟩ := hscale x work hroom
  obtain ⟨y₂, w₂, hy₂, heach'⟩ := hscale x' work' room
  cases hy₁.symm.trans scaled
  have heach₂ := heach.of_visible (hcones ▸ visible)
  have hagree := heach'.unique (fun _ _ _ _ _ h h' => h.unique h') heach₂
  rw [hfits.total_numel hblocks, ← hlength] at hagree
  obtain rfl := Vec.ext_entries hagree
  refine ⟨⟨w₂, hy₂⟩, ?_⟩
  rw [← dims.total_front mnl]
  exact heach.symmetricBlocks (hcones.trans (dims.layout_eq mnl))

/-! ### A NaN above a diagonal -/

/-- A block of order two and a block of order one. -/
def shrinkingCone : ConeDims := ⟨0, [], [2, 1], ConeDims.empty.q_pos⟩

/-- A scaling of the two blocks. -/
def shrinkingScaling : Scaling Float where
  dnl := #[]
  dnli := #[]
  d := #[]
  di := #[]
  v := []
  beta := []
  r := [⟨2, 2, .replicate 2 2 1⟩, ⟨1, 1, .replicate 1 1 2⟩]
  rti := [⟨2, 2, .replicate 2 2 1⟩, ⟨1, 1, .replicate 1 1 2⟩]

/-- The workspace of order two after it was used for a matrix of three rows, full of one number. -/
def usedWorkspace (u : Float) : Workspace Float :=
  ⟨2, ⟨3, 3, .replicate 3 3 u⟩, ⟨0, 0, .replicate 0 0 u⟩⟩

/-- A vector of ones, but for the number above the diagonal of the first block. -/
def shrinkingVector (u : Float) : Vector Float 5 := #v[1, 1, u, 1, 1]

/-- A NaN above the diagonal and in the workspace does not show in the scaled vector. -/
theorem scale_lower_only_shrinking :
    SameVisible (shrinkingCone.layout 0) (entries (shrinkingVector 1).toArray)
      (entries (shrinkingVector (0 / 0)).toArray) ∧
    ∃ y after after', shrinkingScaling.scale (shrinkingVector 1) shrinkingCone 0 ⟨true, false⟩
        (usedWorkspace 1) = .ok ⟨.ok (), (y, after)⟩ ∧
      shrinkingScaling.scale (shrinkingVector (0 / 0)) shrinkingCone 0 ⟨true, false⟩
        (usedWorkspace (0 / 0)) = .ok ⟨.ok (), (y, after')⟩ ∧
      SymmetricBlocks shrinkingCone.s (shift 0 (entries y.toArray)) := by
  have visible : SameVisible (shrinkingCone.layout 0) (entries (shrinkingVector 1).toArray)
      (entries (shrinkingVector (0 / 0)).toArray) := by
    intro i hi
    match i, hi with
    | 0, _ => rfl
    | 1, _ => rfl
    | 2, hi => exact absurd (show (1 : ℕ) ≤ 0 from hi) (by decide)
    | 3, _ => rfl
    | 4, _ => rfl
    | i + 5, _ => rfl
  have room : ∀ k ∈ shrinkingCone.s, k ≤ 2 := by decide
  have haccepts : shrinkingScaling.Accepts shrinkingCone 0 5 2 :=
    ⟨⟨rfl, rfl, rfl, rfl, rfl, rfl, rfl, rfl⟩, rfl, room⟩
  have hlimit : 0 + shrinkingCone.unpackedSize < Word.limit := by decide
  obtain ⟨y, after, -, hscale, -⟩ :=
    scale_of_accepts hlimit ⟨true, false⟩ (shrinkingVector 1) (usedWorkspace 1) haccepts
  have room' : ∀ k ∈ shrinkingCone.s, k ≤ (usedWorkspace (0 / 0)).order := room
  obtain ⟨⟨after', hscale'⟩, hsymmetric⟩ := scale_lower_only hscale visible room'
  exact ⟨visible, y, after, after', hscale, hscale', hsymmetric⟩

end Scaling

end ConicSaddle
