import ConicSaddle.Scaling.Basic
import ConicSaddle.Scaling.Block

/-!
# Applying a scaling

The action of a whole scaling on a vector in unpacked layout: each block acts on its own slice.

* `Scaling.blocks`: the blocks in their order, nonlinear, orthant, second order, semidefinite;
* `Scaling.scale`: the action, after all sizes have been checked.
-/

namespace ConicSaddle

variable {α : Type}

/-- The blocks in their order. -/
def Scaling.blocks (W : Scaling α) : Checked (List (ScalingBlock α)) := do
  let nonlinear ← ScalingBlock.ofDiagonal W.dnl W.dnli
  let orthant ← ScalingBlock.ofDiagonal W.d W.di
  let semidefinite ← (W.r.zip W.rti).mapM fun (r, rti) => ScalingBlock.ofFactors r rti
  pure (nonlinear :: orthant :: (W.v.zipWith ScalingBlock.secondOrder W.beta ++ semidefinite))

variable [Scalar α] {d : Nat}

/-- The actions of blocks on consecutive slices from `start` on. -/
def scaleBlocks (mode : ScalingMode) :
    List (ScalingBlock α) → (start : Nat) → Vector α d → Workspace α →
      Checked (Vector α d × Workspace α)
  | [], _, x, work => pure (x, work)
  | block :: blocks, start, x, work => do
    let part ← slice x.toArray start block.numel
    let (part, work) ← block.apply mode part work
    let x ← splice x start part.toArray
    scaleBlocks mode blocks (start + block.numel) x work

/-- The action of the scaling on a vector.  A size that does not fit is an error, and then vector
and workspace are as before. -/
def Scaling.scale (W : Scaling α) (x : Vector α d) (dims : ConeDims) (mnl : Nat)
    (mode : ScalingMode) (work : Workspace α) :
    Checked (Reply DimensionError Unit (Vector α d × Workspace α)) :=
  match W.checkDims dims mnl with
  | .error e => pure ⟨.error e, (x, work)⟩
  | .ok () => do
    let expected ← Word.add mnl (← dims.numelUnpacked)
    match checkLength "x" d expected with
    | .error e => pure ⟨.error e, (x, work)⟩
    | .ok () =>
      let k := dims.maxOrder
      if work.order < k then
        pure ⟨.error (.matrixSize "work" (k, k) (work.order, work.order)), (x, work)⟩
      else
        let blocks ← W.blocks
        let scaled ← scaleBlocks mode blocks 0 x work
        pure ⟨.ok (), scaled⟩

end ConicSaddle
