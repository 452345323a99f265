/-!
# Dimension errors

Operands that do not have the sizes which the problem implies.

* `DimensionError` and its wording;
* `checkLength`, `checkSize`, `checkBlocks`: the checks that raise them.
-/

namespace ConicSaddle

/-- An operand of the wrong size. -/
inductive DimensionError
  /-- A vector of the wrong length. -/
  | vectorLength (name : String) (expected found : Nat)
  /-- A matrix of the wrong size. -/
  | matrixSize (name : String) (expected found : Nat × Nat)
  /-- A vector too short for what should stand in it from an offset on. -/
  | offset (name : String) (len start needed : Nat)
  /-- A second order cone without dimension. -/
  | badCone
  /-- A scaling with the wrong number of blocks of a kind. -/
  | scalingBlocks (name : String) (expected found : Nat)
  deriving DecidableEq, Repr

/-- A size as it stands in messages. -/
def sizeText (size : Nat × Nat) : String :=
  "(" ++ toString size.1 ++ ", " ++ toString size.2 ++ ")"

/-- The wording of the error. -/
def DimensionError.message : DimensionError → String
  | .vectorLength name expected found =>
    s!"vector `{name}` has length {found}, expected {expected}"
  | .matrixSize name expected found =>
    s!"matrix `{name}` has size {sizeText found}, expected {sizeText expected}"
  | .offset name len start needed =>
    s!"vector `{name}` of length {len} cannot hold {needed} entries at offset {start}"
  | .badCone =>
    "invalid cone descriptor: second order cones must have dimension at least 1"
  | .scalingBlocks name expected found =>
    s!"scaling `{name}` has {found} blocks, expected {expected}"

/-- A vector has the expected length. -/
def checkLength (name : String) (found expected : Nat) : Except DimensionError Unit :=
  if found = expected then .ok () else .error (.vectorLength name expected found)

/-- A matrix has the expected size. -/
def checkSize (name : String) (found expected : Nat × Nat) : Except DimensionError Unit :=
  if found = expected then .ok () else .error (.matrixSize name expected found)

/-- A scaling has the expected number of blocks. -/
def checkBlocks (name : String) (found expected : Nat) : Except DimensionError Unit :=
  if found = expected then .ok () else .error (.scalingBlocks name expected found)

end ConicSaddle
