import ConicSaddle.Cone.Dims
import ConicSaddle.Dense.Matrix

/-!
# Workspace

Scratch matrices for the products that a semidefinite block needs.  They are made once for the
largest order of a descriptor and given the order of the block at hand on each use.
-/

namespace ConicSaddle

/-- Two scratch matrices and the order that they were made for. -/
structure Workspace (α : Type) where
  order : Nat
  first : Matrix α
  second : Matrix α

/-- The workspace for the semidefinite cones of a descriptor. -/
def Workspace.new {α : Type} [Zero α] (dims : ConeDims) : Checked (Workspace α) := do
  let k := dims.maxOrder
  let zeros ← Matrix.zeros k k
  pure ⟨k, zeros, zeros⟩

end ConicSaddle
