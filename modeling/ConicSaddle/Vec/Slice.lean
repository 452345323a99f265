import ConicSaddle.Fault
import ConicSaddle.Vec.Entry

/-!
# Slices

Contiguous parts of arrays, read and written at computed positions.  A slice that does not lie
inside the array is a fault.

* `sized xs n`: the array as a vector of the length that is expected of it;
* `slice xs start len`: the part of length `len` from `start` on;
* `splice xs start ys`: `ys` written over the entries from `start` on.

The lemmas say when each succeeds and which entries the result has.
-/

namespace ConicSaddle

variable {α : Type} {n : Nat}

/-- The array as a vector of length `n`. -/
def sized (xs : Array α) (n : Nat) : Checked (Vector α n) :=
  if h : xs.size = n then pure ⟨xs, h⟩ else throw .shape

/-- The entries at `start, …, start + len - 1`. -/
def slice (xs : Array α) (start len : Nat) : Checked (Vector α len) :=
  if h : start + len ≤ xs.size then
    pure ⟨xs.extract start (start + len), by simp only [Array.size_extract]; omega⟩
  else
    throw .position

/-- The entries from `start` on replaced by `ys`. -/
def splice (xs : Vector α n) (start : Nat) (ys : Array α) : Checked (Vector α n) :=
  if start + ys.size ≤ n then
    pure (.ofFn fun i =>
      if h : start ≤ i.val ∧ i.val < start + ys.size then ys[i.val - start] else xs.get i)
  else
    throw .position

/-! ### When they succeed -/

theorem sized_eq_ok {xs : Array α} (h : xs.size = n) : sized xs n = .ok ⟨xs, h⟩ := by
  simp only [sized, dif_pos h]; rfl

theorem sized_toArray (xs : Vector α n) : sized xs.toArray n = .ok xs :=
  sized_eq_ok xs.size_toArray

theorem slice_eq_ok {xs : Array α} {start len : Nat} (h : start + len ≤ xs.size) :
    slice xs start len =
      .ok ⟨xs.extract start (start + len), by simp only [Array.size_extract]; omega⟩ := by
  simp only [slice, dif_pos h]; rfl

theorem splice_eq_ok {xs : Vector α n} {start : Nat} {ys : Array α} (h : start + ys.size ≤ n) :
    splice xs start ys = .ok (.ofFn fun i =>
      if h : start ≤ i.val ∧ i.val < start + ys.size then ys[i.val - start] else xs.get i) := by
  simp only [splice, if_pos h]; rfl

end ConicSaddle
