import ConicSaddle.Dense.LowerTriangle
import ConicSaddle.Dense.Product
import ConicSaddle.Scaling.Workspace
import ConicSaddle.Vec.Basic
import ConicSaddle.Vec.PairwiseSum

/-!
# Scaling blocks

One block of a scaling and its four actions: the block itself, its transpose, and the inverses of
both.

* `ScalingMode`: which of the four;
* `ScalingBlock`: a diagonal, second order or semidefinite block;
* `ScalingBlock.apply`: the action on a vector.

Diagonal and second order blocks are symmetric, so that only the semidefinite block looks at the
transposition.  It reads its vector through the lower triangle and writes both triangles.
-/

namespace ConicSaddle

/-- Which action of a scaling `W` is meant: `W`, `Wᵀ`, `W⁻¹` or `W⁻ᵀ`. -/
structure ScalingMode where
  transposed : Bool
  inverse : Bool
  deriving DecidableEq, Repr

/-- One block of a scaling. -/
inductive ScalingBlock (α : Type)
  /-- The diagonal matrix of `w`, with the reciprocals in `winv`. -/
  | diagonal {n : Nat} (w winv : Vector α n)
  /-- The matrix `beta * (2 v vᵀ - J)`. -/
  | secondOrder (v : Array α) (beta : α)
  /-- The map `X ↦ rᵀ X r` of symmetric matrices. -/
  | semidefinite {k : Nat} (r rti : Grid k k α)

namespace ScalingBlock

variable {α : Type} {d : Nat}

/-- The diagonal block of two vectors of one length. -/
def ofDiagonal (w winv : Array α) : Checked (ScalingBlock α) := do
  let winv ← sized winv w.size
  pure (.diagonal ⟨w, rfl⟩ winv)

/-- The semidefinite block of two square matrices of one order. -/
def ofFactors (r rti : Matrix α) : Checked (ScalingBlock α) :=
  if h : r.rows = r.cols ∧ r.size = rti.size then
    have square := Matrix.size_of_rows_eq h.1
    pure (.semidefinite (r.toGrid square) (rti.toGrid (h.2.symm.trans square)))
  else
    throw .shape

/-- The number of entries of the vectors that the block acts on. -/
def numel : ScalingBlock α → Nat
  | diagonal (n := n) _ _ => n
  | secondOrder v _ => v.size
  | semidefinite (k := k) _ _ => k * k

variable [Scalar α]

/-- The vector `beta * (2 v vᵀ x - J x)`. -/
def reflect (v : Array α) (beta : α) (x : Vector α d) : Checked (Vector α d) :=
  if h : 0 < d ∧ 0 < v.size then
    let z := Scalar.ofNat 2 * Vec.dot v x.toArray
    pure (.ofFn fun i =>
      if i.val = 0 then beta * (z * v[0] - x.get i)
      else if h : i.val < v.size then beta * (z * v[i.val] + x.get i)
      else x.get i)
  else
    throw .position

/-- The vector `(2 J v vᵀ J x - J x) / beta`. -/
def reflectBack (v : Array α) (beta : α) (x : Vector α d) : Checked (Vector α d) :=
  if h : 0 < d ∧ 0 < v.size then
    let z := Scalar.ofNat 2 *
      (v[0] * x[0] - Vec.dot (v.extract 1 v.size) (x.toArray.extract 1 d))
    pure (.ofFn fun i =>
      if i.val = 0 then (z * v[0] - x.get i) / beta
      else if h : i.val < v.size then (x.get i - z * v[i.val]) / beta
      else x.get i)
  else
    throw .position

/-- The matrix `Rᵀ X R`, or `R X Rᵀ`, of the symmetric matrix whose lower triangle is read from
`x` and whose both triangles are written to it.  The two workspace matrices hold the products. -/
def congruence {k : Nat} (R : Grid k k α) (transposeFirst : Bool) (x : Vector α d)
    (work : Workspace α) : Checked (Vector α d × Workspace α) :=
  if k = 0 then
    pure (x, work)
  else do
    let block : Grid k k α := ⟨← slice x.toArray 0 (k * k)⟩
    let stored := fun A : Grid k k α => (lowerTriangle k).map fun p => (p, A.get p.1 p.2)
    let X := (work.first.grid.resize k k 0).writeSymm (stored block)
    let T := work.second.grid.resize k k 0
    let R := Matrix.ofGrid R
    let (X, T) ← if transposeFirst then do
        let T ← T.mul R.adjoint (Matrix.ofGrid X).plain 1 0
        let X ← X.mul (Matrix.ofGrid T).plain R.plain 1 0
        pure (X, T)
      else do
        let T ← T.mul (Matrix.ofGrid X).plain R.adjoint 1 0
        let X ← X.mul R.plain (Matrix.ofGrid T).plain 1 0
        pure (X, T)
    let x ← splice x 0 (block.writeSymm (stored X)).entries.toArray
    pure (x, { work with first := .ofGrid X, second := .ofGrid T })

/-- The action of the block on a vector. -/
def apply (mode : ScalingMode) (block : ScalingBlock α) (x : Vector α d) (work : Workspace α) :
    Checked (Vector α d × Workspace α) :=
  match block with
  | diagonal w winv =>
    pure (Vec.hadamard x (if mode.inverse then winv else w).toArray, work)
  | secondOrder v beta => do
    let x ← if mode.inverse then reflectBack v beta x else reflect v beta x
    pure (x, work)
  | semidefinite r rti =>
    congruence (if mode.inverse then rti else r) (mode.transposed == mode.inverse) x work

end ScalingBlock

end ConicSaddle
