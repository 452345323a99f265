import ConicSaddle.Number.Ratio

/-!
# Decimal digits

* `digits`, `ofDigits`: natural numbers and their decimal digits;
* `digitText`, `natText`: their texts;
* `Ratio.decimalExponent`: the power of ten of the leading digit of a ratio.
-/

namespace ConicSaddle

namespace Decimal

/-- The decimal digits of a number, the leading one first. -/
def digits (n : Nat) : List Nat :=
  if n < 10 then [n] else digits (n / 10) ++ [n % 10]

/-- The number with the given decimal digits. -/
def ofDigits (ds : List Nat) : Nat := ds.foldl (fun n d => 10 * n + d) 0

/-- The character of a digit. -/
def digitChar (d : Nat) : Char := Char.ofNat ('0'.toNat + d)

/-- Digits as text. -/
def digitText (ds : List Nat) : String := String.ofList (ds.map digitChar)

/-- A number as text. -/
def natText (n : Nat) : String := digitText (digits n)

end Decimal

/-- The power of ten of the leading digit of a positive ratio. -/
def Ratio.decimalExponent (x : Ratio) : Int :=
  let guess : Int := (Decimal.digits x.num).length - (Decimal.digits x.den).length
  if (x.overPower 10 guess).floor = 0 then guess - 1 else guess

end ConicSaddle
