import ConicSaddle.Scalar

/-!
# Pairwise sums

The sum of a range of terms.  A long range is split in the middle and a short one is added up from
the left, starting from zero, so that rounding errors grow slowly and every sum has one fixed tree
of additions.

* `sumRange terms start count`: the sum of `count` terms from position `start` on;
* `dot x y`: the inner product over the entries that both have.
-/

namespace ConicSaddle.Vec

variable {α : Type}

/-- A range of this many terms or more is split. -/
def splitLength : Nat := 16

/-- The sum of the terms at `start, …, start + count - 1`. -/
def sumRange [Zero α] [Add α] (terms : Array α) (start count : Nat) : α :=
  if count < splitLength then
    (terms.extract start (start + count)).foldl (· + ·) 0
  else
    sumRange terms start (count / 2) + sumRange terms (start + count / 2) (count - count / 2)
termination_by count
decreasing_by all_goals (simp only [splitLength] at *; omega)

/-- The inner product; entries beyond the shorter length do not count. -/
def dot [Zero α] [Add α] [Mul α] (x y : Array α) : α :=
  let terms := Array.zipWith (· * ·) x y
  sumRange terms 0 terms.size

/-- The sum of the squares of the entries. -/
def sumSquares [Zero α] [Add α] [Mul α] (x : Array α) : α := dot x x

end ConicSaddle.Vec
