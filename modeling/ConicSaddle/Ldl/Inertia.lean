import ConicSaddle.Ldl.Factor

/-!
# Inertia

The numbers of positive, negative and zero eigenvalues of a block diagonal matrix whose blocks are
read from a lower triangle by a pivot record.  A block of order two is judged by its determinant
and its trace.
-/

namespace ConicSaddle

/-- How many eigenvalues are positive, negative and zero. -/
structure Inertia where
  positive : Nat
  negative : Nat
  zero : Nat
  deriving DecidableEq, Repr

namespace Inertia

variable {α : Type}

/-- No eigenvalues. -/
def none : Inertia := ⟨0, 0, 0⟩

instance : Add Inertia where
  add a b := ⟨a.positive + b.positive, a.negative + b.negative, a.zero + b.zero⟩

/-- The inertia of one number; a NaN counts as zero. -/
def ofNumber [Scalar α] (x : α) : Inertia :=
  if Scalar.isPositive x then ⟨1, 0, 0⟩
  else if Scalar.isNegative x then ⟨0, 1, 0⟩
  else ⟨0, 0, 1⟩

/-- The inertia of the symmetric matrix of order two with diagonal `a`, `c` and entry `b`. -/
def ofPair [Scalar α] (a b c : α) : Inertia :=
  let det := a * c - b * b
  if Scalar.isNegative det then ⟨1, 1, 0⟩
  else if Scalar.isPositive det then ofNumber (a + c) + ofNumber (a + c)
  else ⟨0, 0, 1⟩ + ofNumber (a + c)

end Inertia

namespace Ldl

variable {α : Type} {n : Nat}

/-- `seen` and the inertia of the blocks from column `k` on. -/
def inertiaFrom [Scalar α] (A : Matrix α) (record : Record n) (k : Nat) (seen : Inertia) :
    Checked Inertia :=
  if h : k < n then
    if 0 < record[k] then do
      let a ← A.entry k k
      inertiaFrom A record (k + 1) (seen + .ofNumber a)
    else do
      let a ← A.entry k k
      let b ← A.entry (k + 1) k
      let c ← A.entry (k + 1) (k + 1)
      inertiaFrom A record (k + 2) (seen + .ofPair a b c)
  else
    pure seen
termination_by n - k

/-- The inertia of the block diagonal matrix held in `A`. -/
def inertia [Scalar α] (A : Matrix α) (record : Record n) : Checked Inertia :=
  inertiaFrom A record 0 .none

end Ldl

end ConicSaddle
