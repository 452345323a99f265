import Mathlib.LinearAlgebra.Matrix.ToLinearEquiv
import ConicSaddle.Proofs.Exact.Refinement
import ConicSaddle.Proofs.Ldl.Solution

/-!
# Refinement of exact solutions

Without rounding a solution leaves no residual, and the correction for no residual is zero.  So
every vector that refinement tries is the one that it starts from, and every way to end accepts it,
whatever the tolerance, the stop ratio and the number of steps are, and whatever comes of a quotient
of two zeros.

* `Ldl.Sweeps.mulVec_injective`: a system that was factored without an error has no two solutions;
* `Refinement.Factored`: the factors are those of the matrix that residuals are computed with;
* `Refinement.Factored.residual_eq_zero`, `Refinement.Tries.eq_of_factored`: what a step computes;
* `Refinement.Ends.eq_of_factored`: all steps.
-/

namespace ConicSaddle

variable {n : ℕ}

/-! ### One solution -/

namespace Ldl

variable {A : Grid n n ℝ} {record : Record n} {t : Progress n ℝ}

/-- If every right hand side is answered, then no two vectors answer the same one. -/
theorem Sweeps.mulVec_injective (h : Sweeps 0 ⟨A, record, 0⟩ t) (hinfo : t.info = 0) :
    Function.Injective A.symmMatrix.mulVec := by
  rw [Matrix.mulVec_injective_iff_isUnit, ← Matrix.mulVec_surjective_iff_isUnit]
  intro b
  obtain ⟨z, hz⟩ := exists_solves (A := t.grid) h.splits (.ofFn b)
  refine ⟨z.get, (h.mulVec_eq hinfo (solveGrid_of_solves hz)).trans ?_⟩
  funext i
  exact Vec.get_ofFn b i

end Ldl

namespace Refinement

variable {R : Refinement n ℝ} {x y z : Vector ℝ n} {left : ℕ} {accepted : Bool}

/-- The factors were computed, without an error, from the matrix of the residuals. -/
def Factored (R : Refinement n ℝ) : Prop :=
  ∃ record t, Ldl.Sweeps 0 ⟨R.matrix, record, 0⟩ t ∧ t.info = 0 ∧ R.factors = t.grid ∧
    R.record = t.record

/-- What the factors answer solves the system of the matrix. -/
theorem Factored.mulVec_eq (h : R.Factored) {b : Vector ℝ n}
    (hx : Ldl.solveGrid R.factors R.record b = .ok x) :
    R.matrix.symmMatrix.mulVec x.get = b.get := by
  obtain ⟨record, t, hsweep, hinfo, hfactors, hrecord⟩ := h
  rw [hfactors, hrecord] at hx
  exact hsweep.mulVec_eq hinfo hx

/-- Only zero has the image zero. -/
theorem Factored.eq_zero (h : R.Factored) {v : Fin n → ℝ}
    (hv : R.matrix.symmMatrix.mulVec v = 0) : v = 0 := by
  obtain ⟨record, t, hsweep, hinfo, -, -⟩ := h
  exact hsweep.mulVec_injective hinfo (hv.trans (Matrix.mulVec_zero _).symm)

variable (h : R.Factored) (solved : Ldl.solveGrid R.factors R.record R.rhs = .ok x)
include h solved

/-- The solution leaves no residual. -/
theorem Factored.residual_eq_zero : (R.residual x).get = 0 := by
  funext i
  have hrow : ∑ j, R.matrix.symm i j * x.get j = R.rhs.get i := congrFun (h.mulVec_eq solved) i
  have hdefect : (R.residual x).get i = R.rhs.get i - ∑ j, R.matrix.symm i j * x.get j :=
    R.value_residual x i
  rw [hdefect, hrow, sub_self]
  rfl

/-- A step corrects the solution by zero. -/
theorem Tries.eq_of_factored (tries : R.Tries x y) : y = x := by
  obtain ⟨correction, hcorrection, rfl⟩ := tries.corrected
  have hzero : correction.get = 0 :=
    h.eq_zero ((h.mulVec_eq hcorrection).trans (h.residual_eq_zero solved))
  refine Vec.ext_get fun i => ?_
  show (Vec.axpby 1 x 1 correction).get i = x.get i
  rw [Vec.axpby, Vec.get_ofFn, congrFun hzero i]
  show 1 * x.get i + 1 * 0 = x.get i
  rw [mul_zero, add_zero, one_mul]

/-- A step that ends refinement accepts the solution. -/
theorem Halts.eq_of_factored (halts : R.Halts x accepted z) : accepted = true ∧ z = x := by
  cases halts with
  | diverged infinite => cases infinite
  | converged => exact ⟨Exact.isFinite_array _, rfl⟩
  | @stalled y tries =>
    have hy : y = x := tries.eq_of_factored h solved
    refine ⟨Exact.isFinite_array _, ?_⟩
    rw [better, hy, ite_self]

/-- **Exact solutions are not refined.**  Refinement that starts from the solution for the factors
of its matrix accepts that solution, after any number of steps and for any tolerances and any stop
ratio. -/
theorem Ends.eq_of_factored (ends : R.Ends left x accepted z) : accepted = true ∧ z = x := by
  induction ends with
  | limit x => exact ⟨Exact.isFinite_array _, rfl⟩
  | halt halts => exact halts.eq_of_factored h solved
  | step goes _ ih =>
    -- the step goes on from where it was
    obtain rfl := goes.toTries.eq_of_factored h solved
    exact ih solved

end Refinement

end ConicSaddle
