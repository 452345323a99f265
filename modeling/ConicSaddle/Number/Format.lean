import ConicSaddle.Scalar

/-!
# Binary formats

What a binary floating point number is exactly, and the conversions into a format.

* `Decoded`: a NaN, an infinity, or a sign with a natural number times a power of two;
* `BinaryLayout`: how the fields of a format divide its bits;
* `FloatFormat α`: a scalar type with such a format.
-/

namespace ConicSaddle

/-- What a floating point number stands for. -/
inductive Decoded
  | nan
  | infinite (negative : Bool)
  /-- The number `mantissa * 2 ^ exponent`, or its negative. -/
  | finite (negative : Bool) (mantissa : Nat) (exponent : Int)
  deriving DecidableEq, Repr

/-- The fields of a binary format: a sign, an exponent, and a fraction whose leading bit is left
out. -/
structure BinaryLayout where
  exponentBits : Nat
  fractionBits : Nat

namespace BinaryLayout

/-- The bit in front of the fraction, which is left out. -/
def hiddenBit (layout : BinaryLayout) : Nat := Nat.pow 2 layout.fractionBits

/-- The number of values of the exponent field. -/
def exponentCount (layout : BinaryLayout) : Nat := Nat.pow 2 layout.exponentBits

/-- The power of two of the last place of the smallest numbers. -/
def minExponent (layout : BinaryLayout) : Int :=
  2 - (layout.exponentCount / 2 : Nat) - layout.fractionBits

/-- The number with the given bits. -/
def decode (layout : BinaryLayout) (bits : Nat) : Decoded :=
  let fraction := bits % layout.hiddenBit
  let exponent := bits / layout.hiddenBit % layout.exponentCount
  let negative := bits / layout.hiddenBit / layout.exponentCount % 2 == 1
  if exponent + 1 = layout.exponentCount then
    if fraction = 0 then .infinite negative else .nan
  else if exponent = 0 then
    .finite negative fraction layout.minExponent
  else
    .finite negative (layout.hiddenBit + fraction) (layout.minExponent + exponent - 1)

/-- Double precision. -/
def double : BinaryLayout := ⟨11, 52⟩

/-- Single precision. -/
def single : BinaryLayout := ⟨8, 23⟩

end BinaryLayout

/-- A scalar type of binary floating point numbers. -/
class FloatFormat (α : Type) extends Scalar α where
  /-- The fields of the format. -/
  layout : BinaryLayout
  /-- The bits of a number. -/
  bits : α → Nat
  /-- The number with the given bits. -/
  ofBits : Nat → α
  /-- The number nearest to a number of double precision. -/
  ofDouble : Float → α
  /-- The number nearest to a word. -/
  ofWord : UInt64 → α

/-- What a floating point number stands for. -/
def FloatFormat.decode {α : Type} [FloatFormat α] (x : α) : Decoded :=
  (FloatFormat.layout α).decode (FloatFormat.bits x)

instance : FloatFormat Float where
  layout := .double
  bits x := x.toBits.toNat
  ofBits n := Float.ofBits n.toUInt64
  ofDouble x := x
  ofWord := UInt64.toFloat

instance : FloatFormat Float32 where
  layout := .single
  bits x := x.toBits.toNat
  ofBits n := Float32.ofBits n.toUInt32
  ofDouble := Float.toFloat32
  ofWord := UInt64.toFloat32

end ConicSaddle
