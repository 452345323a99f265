import ConicSaddle.Dense.Grid
import ConicSaddle.Scalar

/-!
# Choice of pivots

The diagonal pivoting of Bunch and Kaufman.  At column `k` of the trailing symmetric matrix, which
is held in its lower triangle, four magnitudes decide between a pivot of order one and a pivot of
order two: those of the diagonal entry, of the largest entry below it, of the largest entry in that
entry's row, and of the diagonal entry in that row.

* `Pivot n`: what to eliminate with, and the row that is brought into place;
* `largestBelow`, `rowMax`: the magnitudes that are compared;
* `choosePivot`: the choice.

A comparison with a NaN is false and a NaN gives way in a maximum, so a NaN off the diagonal does
not decide; a NaN on the diagonal makes the column count as zero.
-/

namespace ConicSaddle.Ldl

variable {α : Type} {n : Nat}

/-- What a column is eliminated with. -/
inductive Pivot (n : Nat)
  /-- Nothing: the column counts as zero. -/
  | zeroColumn
  /-- The diagonal entry of row `p`, which is brought to the diagonal. -/
  | single (p : Fin n)
  /-- The column with the next one, in whose place row `p` is brought. -/
  | pair (p : Fin n)
  deriving DecidableEq, Repr

/-- The number of columns that a pivot deals with. -/
def Pivot.width : Pivot n → Nat
  | .pair _ => 2
  | _ => 1

theorem Pivot.width_pos (pivot : Pivot n) : 0 < pivot.width := by
  cases pivot <;> simp [width]

/-- The rows below row `k`. -/
def below (k : Fin n) : List (Fin n) := (List.finRange n).filter fun i => decide (k < i)

/-- The row and magnitude of the first entry of largest magnitude below the diagonal in a column.
A NaN is found only if it is the first entry. -/
def largestBelow [Scalar α] (A : Grid n n α) (k : Fin n) : Option (Fin n × α) :=
  (below k).foldl (fun best i =>
    let size := Scalar.abs (A.get i k)
    match best with
    | some (_, top) => if Scalar.lt top size then some (i, size) else best
    | none => some (i, size)) none

/-- The largest magnitude in row `p` of the trailing symmetric matrix, off the diagonal. -/
def rowMax [Scalar α] (A : Grid n n α) (k p : Fin n) : α :=
  ((List.finRange n).filter fun j => decide (k ≤ j) && decide (j ≠ p)).foldl
    (fun best j => Scalar.larger best (Scalar.abs (A.symm p j))) 0

/-- The threshold `(1 + √17) / 8`, for which the two orders of pivots let entries grow alike. -/
def threshold [Scalar α] : α := (1 + Scalar.sqrt (Scalar.ofNat 17)) / Scalar.ofNat 8

/-- The pivot for column `k`. -/
def choosePivot [Scalar α] (A : Grid n n α) (k : Fin n) : Pivot n :=
  let size := Scalar.abs (A.get k k)
  let found := (largestBelow A k).getD (k, 0)
  let p := found.1
  let colMax := found.2
  if Scalar.isZero (Scalar.larger size colMax) || Scalar.isNaN size then
    .zeroColumn
  else if Scalar.le (threshold * colMax) size then
    .single k
  else
    let rowMax := rowMax A k p
    if Scalar.le (threshold * colMax * (colMax / rowMax)) size then
      .single k
    else if Scalar.le (threshold * rowMax) (Scalar.abs (A.get p p)) then
      .single p
    else
      .pair p

end ConicSaddle.Ldl
