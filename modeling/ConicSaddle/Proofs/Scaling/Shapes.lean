import ConicSaddle.Proofs.Scaling.Action

/-!
# Which shapes a scaling accepts

Applying a scaling always has an answer as long as the vector's length is a machine word, whatever
the shapes of the scaling, the vector and the workspace are.

* `Scaling.Accepts`: all shapes match;
* `ScalingBlock.Tile`: the slices of the blocks cover a vector, each entry once;
* `Scaling.scale_of_accepts`, `exists_scale_error`: the two ends of the call;
* `Scaling.scale_shapes`: the call succeeds exactly on matching shapes, and otherwise changes
  nothing.
-/

namespace ConicSaddle

open ConeDims (total)
open Vec (entries)

theorem ConeDims.maxOrder_le_iff {dims : ConeDims} {n : ℕ} :
    dims.maxOrder ≤ n ↔ ∀ k ∈ dims.s, k ≤ n := by
  have hmax : (0 :: dims.s).max? = some dims.maxOrder := List.max?_cons'
  rw [List.max?_le_iff hmax]
  simp

variable {α : Type}

/-- The place where the slice of block `i` begins. -/
def ScalingBlock.start (blocks : List (ScalingBlock α)) (i : ℕ) : ℕ :=
  total (blocks.take i) ScalingBlock.numel

/-- The slices of the blocks lie inside a vector of length `d`, and each of its places is in exactly
one of them. -/
structure ScalingBlock.Tile (blocks : List (ScalingBlock α)) (d : ℕ) : Prop where
  inside : ∀ {i block}, blocks[i]? = some block → start blocks i + block.numel ≤ d
  once : ∀ p < d, ∃! i, ∃ block, blocks[i]? = some block ∧
    start blocks i ≤ p ∧ p < start blocks i + block.numel

theorem ScalingBlock.tile_of_total {blocks : List (ScalingBlock α)} {d : ℕ}
    (h : total blocks numel = d) : Tile blocks d where
  inside hblock := h ▸ ConeDims.total_take_add_le hblock numel
  once _ hp := ConeDims.existsUnique_slice (h ▸ hp)

namespace Scaling

/-- The scaling, a vector of length `d` and a workspace of the given order match the descriptor. -/
structure Accepts (W : Scaling α) (dims : ConeDims) (mnl d order : ℕ) : Prop where
  fits : W.Fits dims mnl
  length : d = mnl + dims.unpackedSize
  room : ∀ k ∈ dims.s, k ≤ order

variable [Scalar α] {W : Scaling α} {dims : ConeDims} {mnl d : ℕ}

/-- On matching shapes every block acts on its own slice. -/
theorem scale_of_accepts (hlimit : mnl + dims.unpackedSize < Word.limit) (mode : ScalingMode)
    (x : Vector α d) (work : Workspace α) (h : W.Accepts dims mnl d work.order) :
    ∃ y work' blocks, W.scale x dims mnl mode work = .ok ⟨.ok (), (y, work')⟩ ∧
      work'.order = work.order ∧ W.blocks = .ok blocks ∧
      blocks.map ScalingBlock.cone = dims.layout mnl ∧ ScalingBlock.Tile blocks d ∧
      ∀ i (block : ScalingBlock α), blocks[i]? = some block → block.Acts mode
        (shift (ScalingBlock.start blocks i) (entries x.toArray))
        (shift (ScalingBlock.start blocks i) (entries y.toArray)) := by
  obtain ⟨blocks, hblocks⟩ := h.fits.exists_blocks_eq_ok
  obtain ⟨y, work', hscale, horder, heach⟩ := exists_scale (checkDims_eq_ok.mpr h.fits) hblocks
    (ConeDims.numelUnpacked_of_lt (Nat.lt_of_le_of_lt (Nat.le_add_left _ mnl) hlimit)) h.length
    (h.length ▸ hlimit) mode x work (ConeDims.maxOrder_le_iff.mpr h.room)
  refine ⟨y, work', blocks, hscale, horder, hblocks, h.fits.map_cone hblocks,
    ScalingBlock.tile_of_total ?_, ?_⟩
  · rw [h.fits.total_numel hblocks, ← h.length]
  · intro i block hblock
    exact heach.getElem? hblock

/-- On other shapes there is an error, and nothing has been written. -/
theorem exists_scale_error (hlimit : mnl + dims.unpackedSize < Word.limit) (mode : ScalingMode)
    (x : Vector α d) (work : Workspace α) (h : ¬W.Accepts dims mnl d work.order) :
    ∃ e, W.scale x dims mnl mode work = .ok ⟨.error e, (x, work)⟩ := by
  have hcount : dims.numelUnpacked = .ok dims.unpackedSize :=
    ConeDims.numelUnpacked_of_lt (Nat.lt_of_le_of_lt (Nat.le_add_left _ mnl) hlimit)
  unfold scale
  cases hdims : W.checkDims dims mnl with
  | error e => exact ⟨e, rfl⟩
  | ok u =>
    simp only [hcount, Checked.ok_bind, Word.add_of_lt hlimit]
    cases hlength : checkLength "x" d (mnl + dims.unpackedSize) with
    | error e => exact ⟨e, rfl⟩
    | ok u =>
      -- the checks before it were passed, so that the workspace is too small
      have hsmall : work.order < dims.maxOrder := by
        by_contra hroom
        exact h ⟨checkDims_eq_ok.mp hdims, checkLength_eq_ok.mp hlength,
          ConeDims.maxOrder_le_iff.mp (Nat.not_lt.mp hroom)⟩
      refine ⟨.matrixSize "work" (dims.maxOrder, dims.maxOrder) (work.order, work.order), ?_⟩
      simp only [if_pos hsmall, Checked.pure_eq_ok]

/-- **Applying a scaling accepts exactly the matching shapes.**  As long as the length of an
unpacked vector is a machine word the call has an answer.  The answer is success exactly if all
blocks of the scaling, the vector and the workspace match the descriptor.  Then the blocks can be
made, their slices cover the vector, each entry once, and every block has acted on its own slice;
otherwise vector and workspace are as before. -/
theorem scale_shapes (W : Scaling α) (dims : ConeDims) (mnl : ℕ)
    (hlimit : mnl + dims.unpackedSize < Word.limit) (mode : ScalingMode) (x : Vector α d)
    (work : Workspace α) :
    ∃ reply, W.scale x dims mnl mode work = .ok reply ∧
      (reply.answer = .ok () ↔ W.Accepts dims mnl d work.order) ∧
      (reply.answer = .ok () → reply.state.2.order = work.order ∧
        ∃ blocks, W.blocks = .ok blocks ∧ blocks.map ScalingBlock.cone = dims.layout mnl ∧
          ScalingBlock.Tile blocks d ∧
          ∀ i (block : ScalingBlock α), blocks[i]? = some block → block.Acts mode
            (shift (ScalingBlock.start blocks i) (entries x.toArray))
            (shift (ScalingBlock.start blocks i) (entries reply.state.1.toArray))) ∧
      (reply.answer ≠ .ok () → reply.state = (x, work)) := by
  by_cases h : W.Accepts dims mnl d work.order
  · obtain ⟨y, work', blocks, hscale, horder, hblocks⟩ := scale_of_accepts hlimit mode x work h
    exact ⟨_, hscale, ⟨fun _ => h, fun _ => rfl⟩, fun _ => ⟨horder, blocks, hblocks⟩,
      fun hne => absurd rfl hne⟩
  · obtain ⟨e, he⟩ := exists_scale_error hlimit mode x work h
    exact ⟨_, he, ⟨nofun, fun h' => absurd h' h⟩, nofun, fun _ => rfl⟩

/-! ### Blocks in the wrong order -/

/-- Two second order cones of different dimensions. -/
def unevenCone : ConeDims := ⟨1, [1, 2], [2], by simp⟩

/-- A scaling with the given vectors for the second order cones. -/
def unevenScaling (v : List (Array Float)) : Scaling Float where
  dnl := #[1]
  dnli := #[1]
  d := #[1]
  di := #[1]
  v := v
  beta := [1, 1]
  r := [⟨2, 2, .replicate 2 2 1⟩]
  rti := [⟨2, 2, .replicate 2 2 1⟩]

/-- A workspace for semidefinite cones up to order three. -/
def wideWorkspace : Workspace Float := ⟨3, ⟨3, 3, .replicate 3 3 0⟩, ⟨3, 3, .replicate 3 3 0⟩⟩

theorem unevenScaling_accepts :
    (unevenScaling [#[1], #[1, 0]]).Accepts unevenCone 1 9 wideWorkspace.order :=
  ⟨⟨rfl, rfl, rfl, rfl, rfl, rfl, rfl, rfl⟩, rfl, by decide⟩

theorem unevenScaling_refuses :
    ¬(unevenScaling [#[1, 0], #[1]]).Accepts unevenCone 1 9 wideWorkspace.order :=
  fun h => absurd h.fits.v (by decide)

/-- The vectors of two cones taken for each other have as many entries in all, and the mistake is
noticed before anything is written; in their own order they are accepted. -/
theorem scale_shapes_uneven :
    1 + unevenCone.unpackedSize < Word.limit ∧
    (∃ e, (unevenScaling [#[1, 0], #[1]]).scale (Vector.replicate 9 (1 : Float)) unevenCone 1
      ⟨true, true⟩ wideWorkspace =
        .ok ⟨.error e, (Vector.replicate 9 (1 : Float), wideWorkspace)⟩) ∧
    ∃ reply, (unevenScaling [#[1], #[1, 0]]).scale (Vector.replicate 9 (1 : Float)) unevenCone 1
      ⟨true, true⟩ wideWorkspace = .ok reply ∧ reply.answer = .ok () := by
  have fits : 1 + unevenCone.unpackedSize < Word.limit := by decide
  obtain ⟨⟨answer, state⟩, hswapped, hiff, -, hstate⟩ := scale_shapes
    (unevenScaling [#[1, 0], #[1]]) unevenCone 1 fits ⟨true, true⟩
    (Vector.replicate 9 (1 : Float)) wideWorkspace
  obtain ⟨reply, hordered, hiff', -⟩ := scale_shapes (unevenScaling [#[1], #[1, 0]]) unevenCone 1
    fits ⟨true, true⟩ (Vector.replicate 9 (1 : Float)) wideWorkspace
  refine ⟨fits, ?_, reply, hordered, hiff'.mpr unevenScaling_accepts⟩
  have hrefused : answer ≠ .ok () := fun hok => unevenScaling_refuses (hiff.mp hok)
  cases answer with
  | ok u => exact absurd rfl hrefused
  | error e =>
    obtain rfl : state = _ := hstate hrefused
    exact ⟨e, hswapped⟩

end Scaling

end ConicSaddle
