import ConicSaddle.Number.Decimal
import ConicSaddle.Number.Format

/-!
# Shortest decimals

The decimal with the fewest digits among those that a floating point format rounds to a given
number, and of these the one nearest to the number.

* `Neighbourhood`: the numbers that round to a floating point number;
* `shortest`: the digits and the power of ten of the last one;
* `PositionalRange`, `render`: the text, with or without a power of ten.
-/

namespace ConicSaddle.Shortest

open Decimal

/-- The numbers that round to a floating point number: those between two bounds, with the bounds
themselves or without them. -/
structure Neighbourhood where
  low : Ratio
  high : Ratio
  closed : Bool

/-- The numbers that round to `m * 2 ^ e`.  Below a power of two the next number is half as far
away as above it, unless the format has no smaller last place. -/
def neighbourhood (layout : BinaryLayout) (m : Nat) (e : Int) : Neighbourhood :=
  let below := if m = layout.hiddenBit ∧ layout.minExponent < e then 1 else 2
  ⟨.ofPower (4 * m - below) 2 (e - 2), .ofPower (4 * m + 2) 2 (e - 2), m % 2 == 0⟩

/-- The number lies between the bounds. -/
def Neighbourhood.contains (r : Neighbourhood) (x : Ratio) : Bool :=
  if r.closed then r.low.le x && x.le r.high else r.low.lt x && x.lt r.high

/-- A multiple of `10 ^ q` that rounds to the number, the nearest one if there are several and the
even one of two that are equally near. -/
def candidate? (r : Neighbourhood) (x : Ratio) (q : Int) : Option Nat :=
  let low := (x.overPower 10 q).floor
  let high := low + 1
  let value := fun d => Ratio.ofPower d 10 q
  match r.contains (value low) && decide (0 < low), r.contains (value high) with
  | true, true => some (x.overPower 10 q).nearest
  | true, false => some low
  | false, true => some high
  | false, false => none

/-- The first candidate on ever finer grids from `10 ^ q` on, `left` grids at most. -/
def search (r : Neighbourhood) (x : Ratio) : (left : Nat) → (q : Int) → Nat × Int
  | 0, q => ((x.overPower 10 q).nearest, q)
  | left + 1, q =>
    match candidate? r x q with
    | some d => (d, q)
    | none => search r x left (q - 1)

/-- The digits of the shortest decimal of `m * 2 ^ e` and the power of ten of the last one. -/
def shortest (layout : BinaryLayout) (m : Nat) (e : Int) : List Nat × Int :=
  let x := Ratio.ofPower m 2 e
  let (d, q) := search (neighbourhood layout m e) x 20 (x.decimalExponent + 1)
  (digits d, q)

/-- The places of the decimal point for which no power of ten is written: from `min` on, counted
from the first digit, and up to `max`. -/
structure PositionalRange where
  min : Int
  max : Int

/-- The text of the decimal with the given digits, the last one at `10 ^ q`. -/
def layOut (range : PositionalRange) (ds : List Nat) (q : Int) : String :=
  let point : Int := ds.length + q
  if 0 ≤ q ∧ point ≤ range.max then
    digitText (ds ++ List.replicate q.toNat 0) ++ ".0"
  else if 0 < point ∧ point ≤ range.max then
    digitText (ds.take point.toNat) ++ "." ++ digitText (ds.drop point.toNat)
  else if range.min ≤ point ∧ point ≤ 0 then
    "0." ++ digitText (List.replicate (-point).toNat 0 ++ ds)
  else
    digitText (ds.take 1) ++ (if ds.length = 1 then "" else "." ++ digitText (ds.drop 1)) ++
      "e" ++ toString (point - 1)

/-- The text of a finite number. -/
def render (layout : BinaryLayout) (range : PositionalRange) (negative : Bool) (mantissa : Nat)
    (exponent : Int) : String :=
  let magnitude :=
    if mantissa = 0 then "0.0"
    else
      let (ds, q) := shortest layout mantissa exponent
      layOut range ds q
  (if negative then "-" else "") ++ magnitude

end ConicSaddle.Shortest
