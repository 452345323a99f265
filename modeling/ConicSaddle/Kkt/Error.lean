import ConicSaddle.Dimension
import ConicSaddle.Kkt.Settings
import ConicSaddle.Ldl.Error

/-!
# Errors of the solver

`KktError` and its wording.
-/

namespace ConicSaddle

/-- Why a call of the solver failed. -/
inductive KktError
  /-- An operand does not have the size that the problem implies. -/
  | dimension (error : DimensionError)
  /-- The factorization ended with a status. -/
  | factorization (info : Int)
  /-- A solution has entries that are infinite or NaN. -/
  | nonFiniteSolution
  /-- The handle is of an earlier factorization. -/
  | staleFactorization (token current : Nat)
  /-- The handle is of another solver. -/
  | foreignFactorization
  /-- There is no factorization that can be used. -/
  | notFactored
  /-- The settings are not valid. -/
  | settings (error : SettingsError)
  deriving DecidableEq, Repr

namespace KktError

/-- The wording of the error. -/
def message : KktError → String
  | dimension error => error.message
  | factorization info => "LDL factorization failed (info = " ++ toString info ++ ")"
  | nonFiniteSolution => "KKT solve produced a non-finite result"
  | staleFactorization token current =>
    s!"stale factorization (token generation {token}, current generation {current})"
  | foreignFactorization => "factorization was issued by a different KKT solver"
  | notFactored => "no valid KKT factorization is available"
  | settings error => error.message

/-- The numbers are at fault, and not the use of the solver. -/
def isNumerical : KktError → Bool
  | factorization _ => true
  | nonFiniteSolution => true
  | _ => false

/-- An error of the factorization as an error of the solver. -/
def ofFactorization : FactorizationError → KktError
  | .zeroPivot info => factorization info
  | .incompatibleDimension => factorization (-1)

end KktError

end ConicSaddle
