import ConicSaddle.Dense.View

/-!
# Products

* `Grid.mul`: `alpha * A * B + beta * C` for operands read through views;
* `Matrix.symv`: `alpha * A * x + beta * y` for a symmetric matrix and vectors.

An entry is a sum from the left, starting from zero.  When `beta` is zero the old contents of the
target do not enter, whatever they are.
-/

namespace ConicSaddle

variable {α : Type}

/-- `alpha * s + beta * old`, without `old` when `beta` is zero. -/
def blend [Scalar α] (alpha s beta old : α) : α :=
  if Scalar.isZero beta then alpha * s else alpha * s + beta * old

/-- The inner product of row `i` of `A` and column `j` of `B` over `count` terms. -/
def rowTimesCol [Scalar α] (A B : Operand α) (count i j : Nat) : Checked α :=
  (List.range count).foldlM (fun s l => do
    let a ← A.entry i l
    let b ← B.entry l j
    pure (s + a * b)) 0

/-- The grid `alpha * A * B + beta * C`. -/
def Grid.mul [Scalar α] {m n : Nat} (C : Grid m n α) (A B : Operand α) (alpha beta : α) :
    Checked (Grid m n α) := do
  require (A.cols = B.rows ∧ m = A.rows ∧ n = B.cols) .shape
  let entries ← Vector.ofFnM fun k : Fin (m * n) => do
    let s ← rowTimesCol A B A.cols (k.val % m) (k.val / m)
    pure (blend alpha s beta (C.entries.get k))
  pure ⟨entries⟩

namespace Matrix

/-- The matrix `alpha * A * B + beta * C`. -/
def mul [Scalar α] (C : Matrix α) (A B : Operand α) (alpha beta : α) : Checked (Matrix α) :=
  C.modify (·.mul A B alpha beta)

/-- The vector `alpha * S * x + beta * y`, where `S` is the symmetric matrix with the given
triangle of `A`. -/
def symv [Scalar α] {n : Nat} (A : Matrix α) (stored : Triangle) (x : Array α) (y : Vector α n)
    (alpha beta : α) : Checked (Vector α n) := do
  require (A.rows = A.cols ∧ A.cols = n) .shape
  let x ← sized x n
  Vector.ofFnM fun i => do
    let s ← (List.finRange n).foldlM (fun s j => do
      let a ← (A.symmetric stored).entry i.val j.val
      pure (s + a * x.get j)) 0
    pure (blend alpha s beta (y.get i))

end Matrix

end ConicSaddle
