import ConicSaddle.Scalar

/-!
# Vector operations

Operations on vectors entry by entry, and their norms.

* `hadamard`, `axpby`, `recip`: vectors of the same length as their first argument;
* `normInf`, `normInfDiff`: largest magnitudes;
* `isFinite`: no entry is infinite or a NaN.
-/

namespace ConicSaddle.Vec

variable {α : Type} [Scalar α] {n : Nat}

/-- Each entry multiplied by the entry of `y` at its position, where `y` has one. -/
def hadamard (x : Vector α n) (y : Array α) : Vector α n :=
  .ofFn fun i => if h : i.val < y.size then x.get i * y[i.val] else x.get i

/-- The vector `a * x + b * y`. -/
def axpby (a : α) (x : Vector α n) (b : α) (y : Vector α n) : Vector α n :=
  .ofFn fun i => a * x.get i + b * y.get i

/-- The reciprocal of each entry. -/
def recip (x : Vector α n) : Vector α n := x.map Scalar.recip

/-- The largest magnitude in a list of entries and `best`.  The first NaN is the answer. -/
def largestMagnitude : List α → α → α
  | [], best => best
  | v :: rest, best =>
    let size := Scalar.abs v
    if Scalar.isNaN size then size
    else largestMagnitude rest (if Scalar.lt best size then size else best)

/-- The largest magnitude of an entry, zero for no entries, a NaN if an entry is one. -/
def normInf (x : Array α) : α := largestMagnitude x.toList 0

/-- The largest magnitude of a difference of entries at one position; a NaN does not count. -/
def normInfDiff (x y : Array α) : α :=
  (Array.zipWith (fun a b => Scalar.abs (a - b)) x y).foldl Scalar.larger 0

/-- No entry is infinite or a NaN. -/
def isFinite (x : Array α) : Bool := x.all Scalar.isFinite

end ConicSaddle.Vec
