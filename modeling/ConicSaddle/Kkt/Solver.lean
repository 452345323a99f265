import ConicSaddle.Kkt.Event
import ConicSaddle.Kkt.Problem
import ConicSaddle.Ldl.Inertia
import ConicSaddle.Scaling.Workspace

/-!
# Solvers

The state of a solver of a problem between its calls, and what a call answers.

* `Solver P`: the state, with the storage that the calls use again and again;
* `Handle`: a factorization as its user holds it;
* `Outcome`: the answer of a call, the state it leaves and the events it reports;
* `Solver.new`, `Solver.inertia`.
-/

namespace ConicSaddle

/-- Whether a solver holds a factorization. -/
inductive Status
  | unfactored
  | factored
  | failed
  deriving DecidableEq, Repr

/-- The state of a solver.

* `K`, `record`: the matrix, factored in place, and its pivot record;
* `copy`: the matrix before it was factored, kept for refinement;
* `u`: the right hand side, then the solution, of the packed system;
* `g`: a column of the constraints, or a right hand side, in unpacked layout;
* `b`, `residual`, `candidate`: the right hand side, a residual and a corrected solution during
  refinement. -/
structure Solver {α : Type} (P : Problem α) where
  id : Nat
  generation : Nat
  status : Status
  K : Grid P.order P.order α
  copy : Grid P.order P.order α
  record : Ldl.Record P.order
  u : Vector α P.order
  g : Vector α P.rows
  b : Vector α P.order
  residual : Vector α P.order
  candidate : Vector α P.order
  workspace : Workspace α

/-- A factorization as its user holds it: which solver made it, in which generation, and the
scaling that it was made with. -/
structure Handle (α : Type) where
  solver : Nat
  generation : Nat
  scaling : Scaling α

/-- The answer of a call, the state that it leaves, and the events that it reports. -/
structure Outcome (ρ σ : Type) where
  answer : Except KktError ρ
  state : σ
  events : List Event

namespace Solver

variable {α : Type} [Scalar α] {P : Problem α}

/-- A solver that holds no factorization. -/
def new (P : Problem α) (id : Nat) : Checked (Solver P) := do
  Matrix.allocate P.order P.order
  let _ ← Word.storage P.rows
  let workspace ← Workspace.new P.dims
  pure {
    id := id
    generation := 0
    status := .unfactored
    K := .replicate _ _ 0
    copy := .replicate _ _ 0
    record := .replicate _ 0
    u := .replicate _ 0
    g := .replicate _ 0
    b := .replicate _ 0
    residual := .replicate _ 0
    candidate := .replicate _ 0
    workspace := workspace }

/-- The event that is reported when a solver of the problem is made. -/
def created (P : Problem α) : Event :=
  .created P.vars P.eqs P.mnl P.order P.backend

/-- The solver holds a factorization that can be used. -/
def isFactored (S : Solver P) : Bool := S.status == .factored

/-- The inertia of the factored matrix, if there is one. -/
def inertia (S : Solver P) : Checked (Option Inertia) :=
  if S.isFactored then some <$> Ldl.inertia (.ofGrid S.K) S.record else pure none

end Solver

end ConicSaddle
