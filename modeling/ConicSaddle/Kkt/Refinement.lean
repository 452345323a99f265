import ConicSaddle.Dense.Product
import ConicSaddle.Kkt.Event
import ConicSaddle.Ldl.Solve
import ConicSaddle.Vec.Basic

/-!
# Iterative refinement

A solution is corrected by solving again for its residual, which is computed with the matrix as it
was before it was factored.

* `Refinement`: the systems, the right hand side and the limits;
* `Refinement.Trial`: a solution with its residual and the residual's norm;
* `Refinement.run`: the corrections, until the residual is small enough, does not shrink enough any
  more, is not finite, or the steps are used up.
-/

namespace ConicSaddle

/-- What refinement works with. -/
structure Refinement (n : Nat) (α : Type) where
  factors : Grid n n α
  record : Ldl.Record n
  matrix : Grid n n α
  rhs : Vector α n
  reltol : α
  abstol : α
  stopRatio : α

namespace Refinement

variable {α : Type} {n : Nat}

/-- The solution held at present, and the residual that was computed last, with its norm.  Between
two steps it is the residual of the solution. -/
structure Trial (n : Nat) (α : Type) where
  solution : Vector α n
  residual : Vector α n
  candidate : Vector α n
  norm : α

/-- What refinement ends with. -/
structure Result (n : Nat) (α : Type) where
  accepted : Bool
  trial : Trial n α
  events : List Event

variable [Scalar α]

/-- The right hand side less the matrix times `x`. -/
def residualOf (R : Refinement n α) (x : Vector α n) : Checked (Vector α n) :=
  (Matrix.ofGrid R.matrix).symv .lower x.toArray R.rhs (-1) 1

/-- The residual's norm at which refinement ends. -/
def tolerance (R : Refinement n α) : α :=
  R.abstol + R.reltol * Vec.normInf R.rhs.toArray

/-- Refinement ends with a trial, whose solution is accepted if it is finite. -/
def finish (t : Trial n α) (events : List Event) : Result n α :=
  ⟨Vec.isFinite t.solution.toArray, t, events⟩

/-- At most `left` more steps, after `done` steps. -/
def steps (R : Refinement n α) : (left done : Nat) → Trial n α → Checked (Result n α)
  | 0, _, t => pure (finish t [])
  | left + 1, done, t =>
    if !Scalar.isFinite t.norm then
      pure ⟨false, t, []⟩
    else if Scalar.le t.norm R.tolerance then
      pure (finish t [.converged done])
    else do
      let correction ← Ldl.solveGrid R.factors R.record t.residual
      let candidate := Vec.axpby 1 t.solution 1 correction
      let residual ← R.residualOf candidate
      let norm := Vec.normInf residual.toArray
      let ratio := t.norm / norm
      if Scalar.lt ratio R.stopRatio then
        let solution := if Scalar.lt 1 ratio then candidate else t.solution
        pure (finish ⟨solution, residual, candidate, norm⟩ [])
      else
        steps R left (done + 1) ⟨candidate, residual, candidate, norm⟩

/-- At most `maxSteps` steps from a solution on. -/
def run (R : Refinement n α) (maxSteps : Nat) (x candidate : Vector α n) :
    Checked (Result n α) := do
  let residual ← R.residualOf x
  R.steps maxSteps 0 ⟨x, residual, candidate, Vec.normInf residual.toArray⟩

end Refinement

end ConicSaddle
