import ConicSaddle.Number.Decimal
import ConicSaddle.Number.Format

/-!
# Nearest numbers

The number of a binary format that is nearest to an exact number, and the one with an even last bit
if two are.

* `Ratio.binaryExponent`: the power of two of the leading bit;
* `BinaryLayout.nearest?`, `BinaryLayout.nearestDecimal?`: the bits of the number nearest to a ratio
  or a decimal;
* `FloatFormat.ofDecimal?`: the number itself.

There is no answer where the nearest number is infinite.
-/

namespace ConicSaddle

/-- The power of two of the leading bit of a positive ratio. -/
def Ratio.binaryExponent (x : Ratio) : Int :=
  let guess : Int := (x.num.log2 : Int) - (x.den.log2 : Int)
  if (x.overPower 2 guess).floor = 0 then guess - 1 else guess

namespace BinaryLayout

/-- The power of two of the last place of the numbers beside a positive ratio. -/
def lastPlace (layout : BinaryLayout) (x : Ratio) : Int :=
  let e := x.binaryExponent - layout.fractionBits
  if e < layout.minExponent then layout.minExponent else e

/-- The bits of infinity.  The bits of finite numbers are below, in the order of the numbers. -/
def infinityBits (layout : BinaryLayout) : Nat :=
  (layout.exponentCount - 1) * layout.hiddenBit

/-- The bits of the number nearest to a ratio.  A mantissa that is rounded up to the next power of
two carries into the exponent field, as it has to. -/
def nearest? (layout : BinaryLayout) (x : Ratio) : Option Nat :=
  if x.num = 0 then some 0
  else
    let e := layout.lastPlace x
    let bits := (e - layout.minExponent).toNat * layout.hiddenBit + (x.overPower 2 e).nearest
    if bits < layout.infinityBits then some bits else none

/-- The bits of the number nearest to `n * 10 ^ q`.  That is zero for decimals below all powers of
two, and infinite for decimals above them, so that no power of ten is computed for these. -/
def nearestDecimal? (layout : BinaryLayout) (n : Nat) (q : Int) : Option Nat :=
  let point : Int := (Decimal.digits n).length + q
  if n = 0 ∨ point < layout.minExponent then some 0
  else if layout.exponentCount < point then none
  else layout.nearest? (.ofPower n 10 q)

end BinaryLayout

/-- The number nearest to `n * 10 ^ q`, or its negative. -/
def FloatFormat.ofDecimal? {α : Type} [FloatFormat α] (negative : Bool) (n : Nat) (q : Int) :
    Option α :=
  ((FloatFormat.layout α).nearestDecimal? n q).map fun bits =>
    let x : α := FloatFormat.ofBits bits
    if negative then -x else x

end ConicSaddle
