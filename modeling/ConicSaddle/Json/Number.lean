import ConicSaddle.Fault
import ConicSaddle.Json.Basic
import ConicSaddle.Number.Nearest

/-!
# The values of JSON numbers

A number is a natural number if it is written without sign, point and power of ten.  Every number
is also one of a floating point format, the nearest, unless that is infinite.

* `NumberText.toNat?`: the natural number;
* `NumberText.toScalar?`: the floating point number.
-/

namespace ConicSaddle.NumberText

open Decimal

/-- Written without point and power of ten. -/
def isInteger (t : NumberText) : Bool := t.fraction.isNone && t.power.isNone

/-- The natural number that is written. -/
def toNat? (t : NumberText) : Option Nat :=
  if t.isInteger && !t.negative then some (ofDigits t.whole) else none

/-- The digits before and behind the point as one number. -/
def coefficient (t : NumberText) : Nat := ofDigits (t.whole ++ t.fraction.getD [])

/-- The power of ten that the coefficient is multiplied by. -/
def exponent (t : NumberText) : Int :=
  let power : Int := match t.power with
    | none => 0
    | some (true, ds) => -(ofDigits ds : Int)
    | some (false, ds) => ofDigits ds
  power - (t.fraction.getD []).length

/-- A negative integer that does not fit in a machine word, while its magnitude does. -/
def isWideNegative (t : NumberText) : Bool :=
  t.isInteger && t.negative && decide (0x8000000000000000 < t.coefficient) &&
    decide (t.coefficient < Word.limit)

/-- The nearest number of a format.  A wide negative integer goes through double precision, so that
it may be rounded twice. -/
def toScalar? {α : Type} [FloatFormat α] (t : NumberText) : Option α :=
  if t.isWideNegative then
    (FloatFormat.ofDecimal? true t.coefficient 0 : Option Float).map FloatFormat.ofDouble
  else
    FloatFormat.ofDecimal? t.negative t.coefficient t.exponent

end ConicSaddle.NumberText
