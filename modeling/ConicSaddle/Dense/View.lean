import ConicSaddle.Dense.Matrix

/-!
# Views

Ways of reading a matrix without changing it: as it is, transposed, or as the symmetric matrix
that one of its triangles stands for.  A view turns a row and a column into one place of the
storage, and only that place is checked when the entry is read.

* `Triangle`, `View`, `Operand`;
* `Operand.rows`, `cols`, `place`, `entry`: what the view shows, and where it is stored.
-/

namespace ConicSaddle

/-- A triangle of a square matrix, with its diagonal. -/
inductive Triangle
  | upper
  | lower
  deriving DecidableEq, Repr

/-- The row and column lie in the triangle. -/
def Triangle.contains : Triangle → Nat → Nat → Bool
  | .upper, i, j => decide (i ≤ j)
  | .lower, i, j => decide (j ≤ i)

/-- A way of reading a matrix. -/
inductive View
  /-- As stored. -/
  | plain
  /-- Rows and columns exchanged. -/
  | adjoint
  /-- The symmetric matrix with the stored triangle. -/
  | symmetric (stored : Triangle)
  deriving DecidableEq, Repr

/-- A matrix read through a view. -/
structure Operand (α : Type) where
  view : View
  base : Matrix α

namespace Matrix

variable {α : Type}

/-- The matrix as it is. -/
def plain (A : Matrix α) : Operand α := ⟨.plain, A⟩

/-- The transposed matrix. -/
def adjoint (A : Matrix α) : Operand α := ⟨.adjoint, A⟩

/-- The symmetric matrix with the given triangle of `A`. -/
def symmetric (A : Matrix α) (stored : Triangle) : Operand α := ⟨.symmetric stored, A⟩

end Matrix

namespace Operand

variable {α : Type}

/-- The number of rows shown. -/
def rows (A : Operand α) : Nat :=
  match A.view with
  | .adjoint => A.base.cols
  | _ => A.base.rows

/-- The number of columns shown. -/
def cols (A : Operand α) : Nat :=
  match A.view with
  | .adjoint => A.base.rows
  | _ => A.base.cols

/-- The place in the storage of what is shown in row `i` of column `j`. -/
def place (A : Operand α) (i j : Nat) : Nat :=
  match A.view with
  | .plain => A.base.place i j
  | .adjoint => A.base.place j i
  | .symmetric stored => if stored.contains i j then A.base.place i j else A.base.place j i

/-- The entry shown in row `i` of column `j`. -/
def entry (A : Operand α) (i j : Nat) : Checked α := A.base.entryAt (A.place i j)

/-- A symmetric view is of a square matrix. -/
def Proper (A : Operand α) : Prop :=
  match A.view with
  | .symmetric _ => A.base.IsSquare
  | _ => True

end Operand

end ConicSaddle
