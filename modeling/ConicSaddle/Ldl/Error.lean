/-!
# Errors of the factorization

`FactorizationError` and its wording.
-/

namespace ConicSaddle

/-- Why a factorization was refused or cannot be used. -/
inductive FactorizationError
  /-- The matrix is not square of the order that the pivot record is for. -/
  | incompatibleDimension
  /-- The block of order one in this place, counted from one, is zero. -/
  | zeroPivot (info : Int)
  deriving DecidableEq, Repr

/-- The wording of the error. -/
def FactorizationError.message : FactorizationError → String
  | .incompatibleDimension => "Matrix dimension fields and/or array lengths are incompatible"
  | .zeroPivot info => "LDL factorization error (info = " ++ toString info ++ ")"

end ConicSaddle
