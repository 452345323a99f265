/-!
# Ratios

Exact numbers as ratios of natural numbers.  The digits and the bits of a number are computed from
them.

* `ofPower`: a natural number times a power of a base;
* `overPower`: a ratio over a power of a base;
* `floor`, `nearest`: the natural numbers beside a ratio;
* `le`, `lt`: comparisons.
-/

namespace ConicSaddle

/-- The ratio of two natural numbers. -/
structure Ratio where
  num : Nat
  den : Nat

namespace Ratio

/-- The number `m * b ^ e`. -/
def ofPower (m b : Nat) (e : Int) : Ratio :=
  ⟨m * Nat.pow b e.toNat, Nat.pow b (-e).toNat⟩

/-- The ratio over `b ^ e`. -/
def overPower (x : Ratio) (b : Nat) (e : Int) : Ratio :=
  ⟨x.num * Nat.pow b (-e).toNat, x.den * Nat.pow b e.toNat⟩

/-- The greatest natural number that is at most the ratio. -/
def floor (x : Ratio) : Nat := x.num / x.den

/-- The natural number nearest to the ratio, the even one of two. -/
def nearest (x : Ratio) : Nat :=
  let double := 2 * (x.num % x.den)
  if double < x.den then x.floor
  else if x.den < double then x.floor + 1
  else x.floor + x.floor % 2

/-- At most. -/
def le (x y : Ratio) : Bool := decide (x.num * y.den ≤ y.num * x.den)

/-- Strictly smaller. -/
def lt (x y : Ratio) : Bool := decide (x.num * y.den < y.num * x.den)

end Ratio

end ConicSaddle
