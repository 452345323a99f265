/-!
# Scalars

The arithmetic that every algorithm of the library is written over.  A scalar type has the field
operations, comparisons with a Boolean answer, a magnitude, a square root and tests for the values
that are no numbers.  The algorithms use nothing else, so one definition runs on floating point and
is reasoned about over the reals.

* `Scalar α`: the operations;
* `Scalar.larger`: the greater of two values, a value that is no number giving way to the other;
* instances for the two binary floating point types.
-/

namespace ConicSaddle

/-- The operations that the algorithms use.  A comparison with a value that is no number is false,
in whichever way the instance decides it. -/
class Scalar (α : Type) extends Zero α, One α, Add α, Sub α, Mul α, Div α, Neg α where
  /-- Strictly smaller. -/
  lt : α → α → Bool
  /-- At most. -/
  le : α → α → Bool
  /-- Equal as numbers. -/
  same : α → α → Bool
  /-- Magnitude. -/
  abs : α → α
  /-- Square root. -/
  sqrt : α → α
  /-- Not a number. -/
  isNaN : α → Bool
  /-- Neither infinite nor a NaN. -/
  isFinite : α → Bool
  /-- The scalar nearest to a natural number. -/
  ofNat : Nat → α
  /-- The square root of two. -/
  rootTwo : α
  /-- The reciprocal of the square root of two. -/
  invRootTwo : α

namespace Scalar

variable {α : Type} [Scalar α]

/-- The greater of two values.  A NaN gives way to the other operand. -/
def larger (x y : α) : α :=
  if isNaN x then y else if lt x y then y else x

/-- One divided by the value. -/
def recip (x : α) : α := 1 / x

/-- Equal to zero, of either sign. -/
def isZero (x : α) : Bool := same x 0

/-- Greater than zero. -/
def isPositive (x : α) : Bool := lt 0 x

/-- Less than zero. -/
def isNegative (x : α) : Bool := lt x 0

end Scalar

/-- Double precision. -/
instance : Scalar Float where
  zero := 0
  one := 1
  lt x y := decide (x < y)
  le x y := decide (x ≤ y)
  same x y := x == y
  abs := Float.abs
  sqrt := Float.sqrt
  isNaN := Float.isNaN
  isFinite := Float.isFinite
  ofNat := Float.ofNat
  rootTwo := Float.ofBits 0x3FF6A09E667F3BCD
  invRootTwo := Float.ofBits 0x3FE6A09E667F3BCD

/-- Single precision. -/
instance : Scalar Float32 where
  zero := 0
  one := 1
  lt x y := decide (x < y)
  le x y := decide (x ≤ y)
  same x y := x == y
  abs := Float32.abs
  sqrt := Float32.sqrt
  isNaN := Float32.isNaN
  isFinite := Float32.isFinite
  ofNat := Float32.ofNat
  rootTwo := Float32.ofBits 0x3FB504F3
  invRootTwo := Float32.ofBits 0x3F3504F3

end ConicSaddle
