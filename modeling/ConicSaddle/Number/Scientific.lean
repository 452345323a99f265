import ConicSaddle.Number.Decimal
import ConicSaddle.Number.Format

/-!
# Scientific notation

A number with one digit before the point and a fixed number of digits after it, the exact value
rounded to the nearest such number and a half to the even one.

* `Scientific`: the choices that a text format makes;
* `Scientific.render`: the text of a number.
-/

namespace ConicSaddle

/-- A format of scientific notation: how many digits follow the point, and the width that shorter
texts are filled up to from the left. -/
structure Scientific where
  places : Nat
  width : Nat

namespace Scientific

open Decimal

/-- The leading digits, one more than there are places, and the power of ten of the first one. -/
def leading (format : Scientific) (x : Ratio) : List Nat × Int :=
  let e := x.decimalExponent
  let rounded := digits (x.overPower 10 (e - format.places)).nearest
  if format.places + 1 < rounded.length then (rounded.take (format.places + 1), e + 1)
  else (rounded, e)

/-- The text of a number without its sign. -/
def magnitude (format : Scientific) (mantissa : Nat) (exponent : Int) : String :=
  let (ds, e) :=
    if mantissa = 0 then (List.replicate (format.places + 1) 0, 0)
    else format.leading (.ofPower mantissa 2 exponent)
  digitText (ds.take 1) ++ "." ++ digitText (ds.drop 1) ++ "e" ++ toString e

/-- The text without fill. -/
def body (format : Scientific) : Decoded → String
  | .nan => "NaN"
  | .infinite negative => if negative then "-inf" else "inf"
  | .finite negative mantissa exponent =>
    (if negative then "-" else "") ++ format.magnitude mantissa exponent

/-- The text of a number. -/
def render (format : Scientific) (x : Decoded) : String :=
  let text := format.body x
  String.ofList (List.replicate (format.width - text.length) ' ') ++ text

end Scientific

end ConicSaddle
