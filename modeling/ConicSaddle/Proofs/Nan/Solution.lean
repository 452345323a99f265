import ConicSaddle.Proofs.Kkt.Factors
import ConicSaddle.Proofs.Kkt.Refinement
import ConicSaddle.Proofs.Nan.System

/-!
# A NaN in the answer

A NaN in the data, in the scaling or in the right hand side is not lost.  Where solutions are judged
or refined, the factorization ends in an error or the solve answers that the solution is not finite.

* `Refinement.exists_run_of_nan`: refinement does not accept a solution with a NaN;
* `Solver.solve_of_nan`: neither does a solve with factors that are held;
* `Session.Run.solve_of_nan`: any later solve with a handle that is accepted;
* `Session.nan_reported`: a factorization, and a solve with its handle;
* `nan_reported_hidden`: a NaN that the factorization does not notice.
-/

namespace ConicSaddle

open Scalar (isNaN)
open Vec (HasNaN)

variable {α : Type} [Scalar α] [NaNRules α]

/-! ### Refinement -/

namespace Refinement

variable {n : ℕ}

/-- The residual of a vector with a NaN. -/
theorem hasNaN_residual (R : Refinement n α) {x : Vector α n} (h : HasNaN x) :
    HasNaN (R.residual x) := by
  obtain ⟨j, hj⟩ := h
  refine ⟨j, ?_⟩
  unfold residual
  rw [Vec.get_ofFn]
  refine isNaN_blend _ _ _ (isNaN_foldl_add _ _ 0 (.inr ⟨j, List.mem_finRange j, ?_⟩))
  exact NaNRules.mul_right _ hj

/-- Refinement of a solution with a NaN ends before the first correction: without any steps the
solution is judged, and otherwise the norm of its residual is. -/
theorem exists_run_of_nan (R : Refinement n α) (maxSteps : ℕ) {x : Vector α n} (h : HasNaN x)
    (candidate : Vector α n) :
    ∃ result, R.run maxSteps x candidate = .ok result ∧ result.accepted = false := by
  have hnorm : Scalar.isFinite (R.residualNorm x) = false :=
    NaNRules.isFinite (Vec.isNaN_normInf (R.hasNaN_residual h))
  rw [run, residualOf_eq_ok, Checked.ok_bind]
  cases maxSteps with
  | zero => exact ⟨_, rfl, Vec.isFinite_eq_false h⟩
  | succ left =>
    refine ⟨⟨false, ⟨x, R.residual x, candidate, R.residualNorm x⟩, []⟩, ?_, rfl⟩
    show (if !Scalar.isFinite (R.residualNorm x) then _ else _) = _
    rw [hnorm]
    rfl

end Refinement

/-! ### A solve -/

namespace Solver

variable {P : Problem α} {W : Scaling α} {H Df : Option (Matrix α)}

/-- A packed solution with a NaN is not accepted, when it is judged or refined. -/
theorem exists_solvePacked_of_nan {S : Solver P}
    (guarded : P.settings.checkFinite = true ∨ P.settings.refine = true) {u : Vector α P.order}
    (hu : Ldl.solveGrid S.K S.record S.u = .ok u) (h : HasNaN u) :
    ∃ T events, S.solvePacked = .ok (false, T, events) := by
  unfold solvePacked
  rw [hu, Checked.ok_bind]
  by_cases hrefine : P.settings.refine = true
  · simp only [if_pos hrefine]
    obtain ⟨result, hrun, hrejected⟩ := Refinement.exists_run_of_nan
      (refinement { S with u := u, b := S.u }) P.settings.maxSteps h S.candidate
    rw [hrun, Checked.ok_bind, hrejected]
    exact ⟨_, _, rfl⟩
  · have hjudged := guarded.resolve_right hrefine
    simp only [if_neg hrefine, hjudged, Vec.isFinite_eq_false h]
    exact ⟨_, _, rfl⟩

/-- A solve with factors that are held answers that the solution is not finite, if the data that
were factored, the scaling or the right hand side have a NaN. -/
theorem solve_of_nan {S : Solver P} {K : Grid P.order P.order α} (holds : S.Holds W H Df K)
    {handle : Handle α} (scaling : handle.scaling = W)
    (hwork : P.dims.maxOrder ≤ S.workspace.order) (accepted : S.checkHandle handle = .ok ())
    {rhs : Rhs α} (hrhs : P.checkRhs rhs = .ok ())
    (guarded : P.settings.checkFinite = true ∨ P.settings.refine = true)
    (hnan : P.DataNaN H Df ∨ W.InverseNaN ∨ P.RhsNaN rhs) :
    ∃ out, S.solve handle rhs = .ok out ∧ out.answer = .error .nonFiniteSolution := by
  subst scaling
  have haccepts := Problem.accepts_of_checkInputs holds.checked
  obtain ⟨blocks, hblocks⟩ := exists_blocks haccepts.scaling
  obtain ⟨L, hload, hloaded⟩ := exists_load_nan haccepts.scaling hblocks hrhs S hwork
  obtain ⟨-, hsame⟩ := load_keeps hload
  obtain ⟨record, t, hsweep, hinfo, hK, hrecord⟩ := (holds.of_same hsame).factored
  obtain ⟨u, hu⟩ := Ldl.exists_solves (A := t.grid) hsweep.splits L.u
  have hsolved := Ldl.solveGrid_of_solves hu
  -- the NaN is in the matrix that was factored or in the right hand side that was loaded
  have hspoilt : Ldl.TrailingNaN K 0 ∨ HasNaN L.u := by
    refine hnan.imp (fun hdata => ?_) hloaded
    exact (holds.assembled blocks hblocks).trailingNaN haccepts hblocks hdata
  have hfound := Ldl.hasNaN_of_solveGrid hsweep hinfo hsolved hspoilt
  rw [← hK, ← hrecord] at hsolved
  obtain ⟨T, events, hpacked⟩ := exists_solvePacked_of_nan guarded hsolved hfound
  exact ⟨_, solve_of_nonFinite accepted hrhs hload hpacked, rfl⟩

/-- A factorization behind the dimension checks answers with a handle or names the column that
counted as zero. -/
theorem exists_factor_answer {S : Solver P} (hwork : P.dims.maxOrder ≤ S.workspace.order)
    (hchecked : P.checkInputs W H Df = .ok ()) :
    ∃ out, S.factor W H Df = .ok out ∧
      ((∃ column, out.answer = .error (.factorization column)) ∨
        ∃ handle, out.answer = .ok handle) := by
  obtain ⟨blocks, hblocks⟩ := exists_blocks (Problem.accepts_of_checkInputs hchecked).scaling
  obtain ⟨out, K, record, t, hfactor, -, -, -, -, -, -, hanswer⟩ :=
    exists_factor hchecked hblocks S hwork
  refine ⟨out, hfactor, ?_⟩
  by_cases hinfo : t.info = 0
  · rw [if_pos hinfo] at hanswer
    exact .inr ⟨_, hanswer⟩
  · rw [if_neg hinfo] at hanswer
    exact .inl ⟨t.info, hanswer⟩

end Solver

/-! ### In a run -/

namespace Session

variable {s t : Session α} {history : List (Moment α)}

/-- A handle for data with a NaN answers no right hand side, and no handle answers a right hand side
with a NaN. -/
theorem Run.solve_of_nan {P : Problem α} {U : Solver P} {id : ℕ}
    {later earlier : List (Moment α)} {W : Scaling α} {H Df : Option (Matrix α)}
    {handle : Handle α}
    (run : Run (later ++ ⟨.factor id W H Df (.ok handle), t⟩ :: earlier) s)
    (hU : s.solvers[id]? = some ⟨P, U⟩) (accepted : U.checkHandle handle = .ok ()) {rhs : Rhs α}
    (sizes : P.checkRhs rhs = .ok ())
    (guarded : P.settings.checkFinite = true ∨ P.settings.refine = true)
    (hnan : P.DataNaN H Df ∨ W.InverseNaN ∨ P.RhsNaN rhs) :
    ∃ (hid : id < s.solvers.size) (out : Outcome Unit (Session α × Rhs α)),
      s.solve ⟨id, hid⟩ handle rhs = .ok out ∧ out.answer = .error .nonFiniteSolution := by
  have hid := (Array.getElem?_eq_some_iff.mp hU).1
  obtain ⟨hscaling, K, hK⟩ := run.holds hU accepted
  obtain ⟨out, hsolve, hanswer⟩ := Solver.solve_of_nan hK hscaling (run.workspace hU) accepted
    sizes guarded hnan
  exact ⟨hid, _, solve_of_solver (j := ⟨id, hid⟩) hU hsolve, hanswer⟩

/-- **A NaN is never lost.**  In any state of a session, let solutions of a solver be judged or
refined, and let a factorization and a right hand side have the right sizes.  If a NaN is in the
equality constraints, in the lower triangle of the Hessian, in the Jacobian, in the conic
constraints, in what the inverse scaling is computed with, or in the right hand side, not counting
the strict upper triangles of semidefinite blocks, then the factorization ends in an error that
names a column, or the solve with its handle answers that the solution is not finite. -/
theorem nan_reported (run : Run history s) {id : ℕ} (hid : id < s.solvers.size) {W : Scaling α}
    {H Df : Option (Matrix α)} {rhs : Rhs α}
    (guarded : s.solvers[id].problem.settings.checkFinite = true ∨
      s.solvers[id].problem.settings.refine = true)
    (inputs : s.solvers[id].problem.checkInputs W H Df = .ok ())
    (sizes : s.solvers[id].problem.checkRhs rhs = .ok ())
    (hnan : s.solvers[id].problem.DataNaN H Df ∨ W.InverseNaN ∨
      s.solvers[id].problem.RhsNaN rhs) :
    ∃ factored, s.factor ⟨id, hid⟩ W H Df = .ok factored ∧
      ((∃ column, factored.answer = .error (.factorization column)) ∨
        ∃ (handle : Handle α) (h : id < factored.state.solvers.size)
          (solved : Outcome Unit (Session α × Rhs α)),
          factored.answer = .ok handle ∧
          factored.state.solve ⟨id, h⟩ handle rhs = .ok solved ∧
          solved.answer = .error .nonFiniteSolution) := by
  have hX : s.solvers[id]? = some s.solvers[id] := Array.getElem?_eq_getElem hid
  generalize s.solvers[id] = X at hX guarded inputs sizes hnan
  obtain ⟨P, S⟩ := X
  obtain ⟨out, hfactor, hcases⟩ := Solver.exists_factor_answer (run.workspace hX) inputs
  have hcall := factor_of_solver (j := ⟨id, hid⟩) hX hfactor
  refine ⟨_, hcall, ?_⟩
  refine hcases.imp_right ?_
  rintro ⟨handle, hissued⟩
  have hrun := run.next (.factor _ hcall)
  rw [hissued, ← List.nil_append (_ :: _)] at hrun
  have hY : (s.solvers.set id ⟨P, out.state⟩)[id]? = some ⟨P, out.state⟩ := by
    rw [Array.getElem?_set, if_pos rfl]
  -- the handle is accepted by the solver that issued it
  obtain ⟨hplace, solved, hsolve, hanswer⟩ := hrun.solve_of_nan hY
    (Solver.accepts_issued hfactor hissued) sizes guarded hnan
  exact ⟨handle, hplace, solved, hissued, hsolve, hanswer⟩

end Session

/-! ### A NaN that no pivot notices -/

/-- The problem with two variables and no constraints, whose solutions are judged. -/
def twoVariables : Problem Float where
  dims := .empty
  mnl := 0
  G := ⟨0, 2, .replicate 0 2 0⟩
  A := ⟨0, 2, .replicate 0 2 0⟩
  settings := ⟨"auto", false, 0, 0, 0, 0, true⟩
  backend := .native
  unpacked := 0
  packed := 0
  numelUnpacked_eq := rfl
  numelPacked_eq := rfl
  G_rows := rfl
  A_cols := rfl
  rows_fit := by decide
  order_fits := by decide

/-- The scaling of no constraints. -/
def noScaling : Scaling Float := ⟨#[], #[], #[], #[], [], [], [], []⟩

/-- A Hessian with a NaN on the diagonal, in a block of order two. -/
def hiddenNaN : Option (Matrix Float) := some ⟨2, 2, ⟨#v[0, 1, 0, 0 / 0]⟩⟩

/-- Whether there is a handle for that Hessian. -/
def hiddenFactorization : Checked Bool := do
  let P := twoVariables
  let made ← Session.empty.create P.G P.dims P.A P.mnl P.settings
  if h : 0 < made.state.solvers.size then
    let factored ← made.state.factor ⟨0, h⟩ noScaling hiddenNaN none
    pure factored.answer.isOk
  else
    pure false

/-- The factorization succeeds, and the solve reports the NaN. -/
theorem nan_reported_hidden :
    ∃ (history : List (Session.Moment Float)) (s : Session Float) (id : ℕ)
      (hid : id < s.solvers.size) (factored : Outcome (Handle Float) (Session Float))
      (handle : Handle Float)
      (h : id < factored.state.solvers.size)
      (solved : Outcome Unit (Session Float × Rhs Float)),
      Session.Run history s ∧ s.factor ⟨id, hid⟩ noScaling hiddenNaN none = .ok factored ∧
      factored.answer = .ok handle ∧
      factored.state.solve ⟨id, h⟩ handle ⟨#[1, 1], #[], #[]⟩ = .ok solved ∧
      solved.answer = .error .nonFiniteSolution := by
  have hdone : hiddenFactorization = .ok true := by decide +kernel
  have hnan : isNaN (0 / 0 : Float) = true := by decide +kernel
  have hinputs : twoVariables.checkInputs noScaling hiddenNaN none = .ok () := rfl
  have hsizes : twoVariables.checkRhs ⟨#[1, 1], #[], #[]⟩ = .ok () := rfl
  have hdata : twoVariables.DataNaN hiddenNaN none := .hessian rfl 1 1 (Nat.le_refl 1) hnan
  obtain ⟨S, hcreate⟩ : ∃ S : Solver twoVariables,
      Session.empty.create twoVariables.G twoVariables.dims twoVariables.A 0 twoVariables.settings =
        .ok ⟨.ok 0, ⟨#[⟨twoVariables, S⟩]⟩, [Solver.created twoVariables]⟩ := ⟨_, rfl⟩
  have run := Session.Run.start.next (.create hcreate)
  obtain ⟨factored, hfactor, ⟨column, hcolumn⟩ | ⟨handle, h, solved, hissued, hsolve, hanswer⟩⟩ :=
    Session.nan_reported run Nat.one_pos (.inl rfl) hinputs hsizes (.inl hdata)
  · -- the factorization was computed
    obtain ⟨made, hmade, hdone⟩ := Checked.bind_eq_ok.mp hdone
    cases hcreate.symm.trans hmade
    obtain ⟨factored', hfactored', hok⟩ := Checked.bind_eq_ok.mp hdone
    cases hfactor.symm.trans hfactored'
    rw [hcolumn] at hok
    cases hok
  · exact ⟨_, _, _, _, factored, handle, h, solved, run, hfactor, hissued, hsolve, hanswer⟩

end ConicSaddle
