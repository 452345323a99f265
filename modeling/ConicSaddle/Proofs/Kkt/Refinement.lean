import ConicSaddle.Proofs.Dense.Product
import ConicSaddle.Proofs.Kkt.Lifecycle
import ConicSaddle.Proofs.Ldl.Substitution

/-!
# The course of refinement

Which vectors refinement goes through, and where it ends.  Every vector is held together with its own
residual, although the residual and the candidate are computed in storage that the steps share.

* `Refinement.residual`, `Refinement.residualNorm`: the residual of a vector and its norm;
* `Refinement.Tries`, `Refinement.Accepts`: the candidate of a step, and a candidate that is taken;
* `Refinement.Goes`, `Refinement.Halts`: a step that goes on, and one that ends refinement;
* `Refinement.Ends`, `Refinement.exists_run`: every run ends, by its last step or without one left;
* `Refinement.Iterates`: so many steps that all go on;
* `Solver.Refines`, `Solver.exists_solvePacked_refined`: refinement in a solver.
-/

namespace ConicSaddle

variable {α : Type} [Scalar α]

namespace Refinement

variable {n : ℕ}

/-! ### Residuals -/

/-- The right hand side less the product of the vector with the symmetric matrix that the lower
triangle gives. -/
def residual (R : Refinement n α) (x : Vector α n) : Vector α n :=
  .ofFn fun i =>
    blend (-1) ((List.finRange n).foldl (fun s j => s + R.matrix.symm i j * x.get j) 0) 1
      (R.rhs.get i)

theorem residualOf_eq_ok (R : Refinement n α) (x : Vector α n) :
    R.residualOf x = .ok (R.residual x) :=
  Matrix.symv_eq_ok R.matrix x R.rhs (-1) 1

/-- The largest magnitude of an entry of the residual. -/
def residualNorm (R : Refinement n α) (x : Vector α n) : α :=
  Vec.normInf (R.residual x).toArray

/-- The factor by which the residual shrinks from `x` to `y`. -/
def shrinkage (R : Refinement n α) (x y : Vector α n) : α :=
  R.residualNorm x / R.residualNorm y

/-! ### A step -/

/-- A step from `x` tries `y`: neither test at its beginning ends refinement, and `y` is `x` with
the solution for its residual added. -/
structure Tries (R : Refinement n α) (x y : Vector α n) : Prop where
  finite : Scalar.isFinite (R.residualNorm x) = true
  above : Scalar.le (R.residualNorm x) R.tolerance = false
  corrected : ∃ correction, Ldl.solveGrid R.factors R.record (R.residual x) = .ok correction ∧
    y = Vec.axpby 1 x 1 correction

/-- The candidate of a step is determined. -/
theorem Tries.unique {R : Refinement n α} {x y y' : Vector α n} (h : R.Tries x y)
    (h' : R.Tries x y') : y' = y := by
  obtain ⟨correction, hsolved, rfl⟩ := h.corrected
  obtain ⟨correction', hsolved', rfl⟩ := h'.corrected
  cases hsolved.symm.trans hsolved'
  rfl

/-- A step from `x` takes the candidate `y`, whether refinement goes on with it or ends. -/
structure Accepts (R : Refinement n α) (x y : Vector α n) : Prop extends R.Tries x y where
  shrinks : Scalar.lt (R.shrinkage x y) R.stopRatio = false ∨
    Scalar.lt 1 (R.shrinkage x y) = true

/-- Refinement goes on from `x` with the candidate `y`. -/
structure Goes (R : Refinement n α) (x y : Vector α n) : Prop extends R.Tries x y where
  shrinks : Scalar.lt (R.shrinkage x y) R.stopRatio = false

/-- The candidate if it shrinks the residual at all, and otherwise the vector itself. -/
def better (R : Refinement n α) (x y : Vector α n) : Vector α n :=
  if Scalar.lt 1 (R.shrinkage x y) then y else x

/-- A step from `x` ends refinement with a verdict and a vector: the residual is not finite, or it is
small enough, or the candidate does not shrink it enough. -/
inductive Halts (R : Refinement n α) (x : Vector α n) : Bool → Vector α n → Prop
  | diverged (infinite : Scalar.isFinite (R.residualNorm x) = false) : Halts R x false x
  | converged (finite : Scalar.isFinite (R.residualNorm x) = true)
      (small : Scalar.le (R.residualNorm x) R.tolerance = true) :
      Halts R x (Vec.isFinite x.toArray) x
  | stalled {y : Vector α n} (tries : R.Tries x y)
      (stalls : Scalar.lt (R.shrinkage x y) R.stopRatio = true) :
      Halts R x (Vec.isFinite (R.better x y).toArray) (R.better x y)

section

variable {R : Refinement n α} {x y z z' : Vector α n} {accepted accepted' : Bool}

theorem Goes.accepts (h : R.Goes x y) : R.Accepts x y := ⟨h.toTries, .inl h.shrinks⟩

theorem better_eq_or_accepts (h : R.Tries x y) :
    R.better x y = x ∨ R.Accepts x (R.better x y) := by
  unfold better
  cases hsmaller : Scalar.lt 1 (R.shrinkage x y) with
  | false => exact .inl rfl
  | true => exact .inr ⟨h, .inr hsmaller⟩

/-- The step that ends refinement keeps the vector or accepts one more. -/
theorem Halts.eq_or_accepts (h : R.Halts x accepted z) : z = x ∨ R.Accepts x z := by
  cases h with
  | diverged => exact .inl rfl
  | converged => exact .inl rfl
  | stalled tries => exact better_eq_or_accepts tries

/-- A step does not both end refinement and go on. -/
theorem Halts.not_goes (h : R.Halts x accepted z) : ¬R.Goes x y := by
  intro goes
  cases h with
  | diverged infinite => cases infinite.symm.trans goes.finite
  | converged _ small => cases small.symm.trans goes.above
  | stalled tries stalls =>
    cases tries.unique goes.toTries
    cases stalls.symm.trans goes.shrinks

/-- The vector that a step ends refinement with is determined. -/
theorem Halts.unique (h : R.Halts x accepted z) (h' : R.Halts x accepted' z') : z' = z := by
  cases h with
  | diverged infinite =>
    cases h' with
    | diverged => rfl
    | converged => rfl
    | stalled tries => cases infinite.symm.trans tries.finite
  | converged _ small =>
    cases h' with
    | diverged => rfl
    | converged => rfl
    | stalled tries => cases small.symm.trans tries.above
  | stalled tries =>
    cases h' with
    | diverged infinite => cases infinite.symm.trans tries.finite
    | converged _ small => cases small.symm.trans tries.above
    | stalled tries' => rw [tries.unique tries']

end

/-! ### All steps -/

/-- Refinement of `x` with at most `left` more steps ends with a verdict and a vector.  Where no step
is left, only the entries are asked whether they are finite, and the residual is not. -/
inductive Ends (R : Refinement n α) : ℕ → Vector α n → Bool → Vector α n → Prop
  | limit (x : Vector α n) : Ends R 0 x (Vec.isFinite x.toArray) x
  | halt {left : ℕ} {x z : Vector α n} {accepted : Bool} (halts : R.Halts x accepted z) :
      Ends R (left + 1) x accepted z
  | step {left : ℕ} {x y z : Vector α n} {accepted : Bool} (goes : R.Goes x y)
      (rest : Ends R left y accepted z) : Ends R (left + 1) x accepted z

/-- The steps from a vector that is held with its residual come to an end.  The induction is on the
steps that are left, and the candidate is held with its own residual again. -/
theorem exists_steps (R : Refinement n α) (h : R.record.Splits 0) (left done : ℕ)
    (x candidate : Vector α n) :
    ∃ result, R.steps left done ⟨x, R.residual x, candidate, R.residualNorm x⟩ = .ok result ∧
      R.Ends left x result.accepted result.trial.solution := by
  induction left generalizing done x candidate with
  | zero => exact ⟨_, rfl, .limit x⟩
  | succ left ih =>
    obtain ⟨correction, hcorrection⟩ := Ldl.exists_solves (A := R.factors) h (R.residual x)
    have hsolved := Ldl.solveGrid_of_solves hcorrection
    obtain ⟨y, hy⟩ : ∃ y, y = Vec.axpby 1 x 1 correction := ⟨_, rfl⟩
    have hshrinkage : R.residualNorm x / Vec.normInf (R.residual y).toArray = R.shrinkage x y :=
      rfl
    simp only [steps, hsolved, ← hy, residualOf_eq_ok, Checked.ok_bind, hshrinkage]
    cases hfinite : Scalar.isFinite (R.residualNorm x) with
    | false => exact ⟨_, rfl, .halt (.diverged hfinite)⟩
    | true =>
    cases hsmall : Scalar.le (R.residualNorm x) R.tolerance with
    | true => exact ⟨_, rfl, .halt (.converged hfinite hsmall)⟩
    | false =>
    have tries : R.Tries x y := ⟨hfinite, hsmall, correction, hsolved, hy⟩
    cases hstalls : Scalar.lt (R.shrinkage x y) R.stopRatio with
    | true => exact ⟨_, rfl, .halt (.stalled tries hstalls)⟩
    | false =>
      obtain ⟨result, hresult, hends⟩ := ih (done + 1) y y
      exact ⟨result, hresult, .step ⟨tries, hstalls⟩ hends⟩

theorem exists_run (R : Refinement n α) (h : R.record.Splits 0) (maxSteps : ℕ)
    (x candidate : Vector α n) :
    ∃ result, R.run maxSteps x candidate = .ok result ∧
      R.Ends maxSteps x result.accepted result.trial.solution := by
  rw [run, residualOf_eq_ok, Checked.ok_bind]
  exact R.exists_steps h maxSteps 0 x candidate

/-- Refinement takes so many steps from `x` to `z`, and every one of them goes on. -/
inductive Iterates (R : Refinement n α) : ℕ → Vector α n → Vector α n → Prop
  | refl (x : Vector α n) : Iterates R 0 x x
  | step {count : ℕ} {x y z : Vector α n} (goes : R.Goes x y) (rest : Iterates R count y z) :
      Iterates R (count + 1) x z

section

variable {R : Refinement n α} {left : ℕ} {x z z' : Vector α n} {accepted accepted' : Bool}

/-- Without a step refinement ends with the vector that it starts from. -/
theorem Ends.eq_of_limit (ends : R.Ends 0 x accepted z) : z = x := by
  cases ends
  rfl

/-- With one step more, refinement ends with the same vector or with a candidate that this step
accepts. -/
theorem Ends.next (ends : R.Ends left x accepted z) (next : R.Ends (left + 1) x accepted' z') :
    z' = z ∨ R.Accepts z z' := by
  induction ends with
  | limit x =>
    cases next with
    | halt halts => exact halts.eq_or_accepts
    | step goes rest =>
      cases rest
      exact .inr goes.accepts
  | halt halts =>
    cases next with
    | halt halts' => exact .inl (halts.unique halts')
    | step goes => exact absurd goes halts.not_goes
  | step goes _ ih =>
    cases next with
    | halt halts => exact absurd goes halts.not_goes
    | step goes' rest =>
      cases goes.unique goes'.toTries
      exact ih rest

/-- Where every step goes on, refinement ends with the last vector and asks only whether its entries
are finite. -/
theorem Iterates.ends (h : R.Iterates left x z) (ends : R.Ends left x accepted z') :
    accepted = Vec.isFinite z.toArray ∧ z' = z := by
  induction h with
  | refl x =>
    cases ends
    exact ⟨rfl, rfl⟩
  | step goes _ ih =>
    cases ends with
    | halt halts => exact absurd goes halts.not_goes
    | step goes' rest =>
      cases goes.unique goes'.toTries
      exact ih rest

end

end Refinement

/-! ### In a solver -/

namespace Solver

variable {P : Problem α}

/-- A solver `L` with a right hand side in `L.u` was left as `T` by solving and refining: `u` is the
solution for the factors, and its refinement against the unfactored copy ended with `T.u` and a
verdict on it. -/
structure Refines (L T : Solver P) (u : Vector α P.order) (verdict : Bool) : Prop where
  rhs_eq : T.b = L.u
  same : SameFactors L T
  solved : Ldl.solveGrid T.K T.record T.b = .ok u
  run : ∃ result candidate, T.refinement.run P.settings.maxSteps u candidate = .ok result ∧
    result.accepted = verdict ∧ result.trial.solution = T.u
  ends : T.refinement.Ends P.settings.maxSteps u verdict T.u

/-- What is said of the solver that was left does not depend on its status. -/
theorem Refines.of_status {L T : Solver P} {u : Vector α P.order} {verdict : Bool}
    (h : L.Refines T u verdict) (status : Status) :
    L.Refines { T with status := status } u verdict :=
  ⟨h.rhs_eq, ⟨h.same.K_eq, h.same.record_eq, h.same.copy_eq⟩, h.solved, h.run, h.ends⟩

/-- The packed system is solved, and the solution is refined. -/
theorem exists_solvePacked_refined {L : Solver P} (refined : P.settings.refine = true)
    (h : L.record.Splits 0) :
    ∃ verdict T events u, L.solvePacked = .ok (verdict, T, events) ∧ L.Refines T u verdict := by
  obtain ⟨u, hu⟩ := Ldl.exists_solves (A := L.K) h L.u
  have hsolved := Ldl.solveGrid_of_solves hu
  obtain ⟨result, hrun, hends⟩ := Refinement.exists_run
    (refinement { L with u := u, b := L.u }) h P.settings.maxSteps u L.candidate
  let T : Solver P := { L with
    u := result.trial.solution
    b := L.u
    residual := result.trial.residual
    candidate := result.trial.candidate }
  refine ⟨result.accepted, T, result.events, u, ?_, rfl, ⟨rfl, rfl, rfl⟩, hsolved,
    ⟨result, L.candidate, hrun, rfl, rfl⟩, hends⟩
  rw [solvePacked, hsolved, Checked.ok_bind]
  simp only [if_pos refined, hrun, Checked.ok_bind]
  rfl

end Solver

end ConicSaddle
