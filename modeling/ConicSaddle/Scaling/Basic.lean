import ConicSaddle.Cone.Dims
import ConicSaddle.Dense.Matrix

/-!
# Scalings

The scaling of Nesterov and Todd for a product cone, with a diagonal block for nonlinear
constraints in front.  It is stored by its blocks; how it acts is in `ConicSaddle.Scaling.Apply`.

* `Scaling`: the blocks;
* `Scaling.identity`, `Scaling.ofBlocks`: new scalings;
* `Scaling.checkDims`: the blocks have the sizes that a cone descriptor asks for.
-/

namespace ConicSaddle

/-- A block diagonal scaling.

* `dnl`, `dnli`: the diagonal for nonlinear constraints and its inverse;
* `d`, `di`: the diagonal for the orthant and its inverse;
* `v`, `beta`: one pair for each second order cone, standing for `beta * (2 v vᵀ - J)`, where
  `J = diag(1, -1, …, -1)` and `vᵀ J v = 1`;
* `r`, `rti`: one pair for each semidefinite cone, standing for `X ↦ rᵀ X r`, where `rti` is the
  transposed inverse of `r`. -/
structure Scaling (α : Type) where
  dnl : Array α
  dnli : Array α
  d : Array α
  di : Array α
  v : List (Array α)
  beta : List α
  r : List (Matrix α)
  rti : List (Matrix α)

namespace Scaling

variable {α : Type} [Scalar α]

/-- A vector of ones. -/
def ones (n : Nat) : Checked (Array α) := do
  let n ← Word.storage n
  pure (.replicate n 1)

/-- The first unit vector. -/
def firstUnit (n : Nat) : Checked (Array α) := do
  let n ← Word.storage n
  pure (.ofFn fun i : Fin n => if i.val = 0 then 1 else 0)

/-- The scaling that changes nothing. -/
def identity (dims : ConeDims) (mnl : Nat) : Checked (Scaling α) := do
  let dnl ← ones mnl
  let d ← ones dims.l
  let v ← dims.q.mapM firstUnit
  let r ← dims.s.mapM Matrix.identity
  pure {
    dnl := dnl, dnli := dnl, d := d, di := d
    v := v, beta := dims.q.map fun _ => 1
    r := r, rti := r }

/-- The scaling with the given blocks, the inverse diagonals being computed. -/
def ofBlocks (dnl d : Array α) (v : List (Array α)) (beta : List α) (r rti : List (Matrix α)) :
    Scaling α where
  dnl := dnl
  dnli := dnl.map Scalar.recip
  d := d
  di := d.map Scalar.recip
  v := v
  beta := beta
  r := r
  rti := rti

/-- Vectors of the expected lengths, as far as both lists go. -/
def checkLengths {α : Type} (name : String) :
    List (Array α) → List Nat → Except DimensionError Unit
  | v :: vs, n :: ns => do
    checkLength name v.size n
    checkLengths name vs ns
  | _, _ => .ok ()

/-- Pairs of square matrices of the expected orders, as far as all lists go. -/
def checkOrders {α : Type} : List (Matrix α) → List (Matrix α) → List Nat →
    Except DimensionError Unit
  | r :: rs, rti :: rtis, k :: ks => do
    checkSize "r" r.size (k, k)
    checkSize "rti" rti.size (k, k)
    checkOrders rs rtis ks
  | _, _, _ => .ok ()

/-- Every block has the size that the descriptor and the number of nonlinear constraints ask
for. -/
def checkDims {α : Type} (W : Scaling α) (dims : ConeDims) (mnl : Nat) :
    Except DimensionError Unit := do
  checkLength "dnl" W.dnl.size mnl
  checkLength "dnli" W.dnli.size mnl
  checkLength "d" W.d.size dims.l
  checkLength "di" W.di.size dims.l
  checkBlocks "v" W.v.length dims.q.length
  checkBlocks "beta" W.beta.length dims.q.length
  checkLengths "v" W.v dims.q
  checkBlocks "r" W.r.length dims.s.length
  checkBlocks "rti" W.rti.length dims.s.length
  checkOrders W.r W.rti dims.s

end Scaling

end ConicSaddle
