import ConicSaddle.Kkt.SettingsText
import ConicSaddle.Proofs.Kkt.Total
import ConicSaddle.Proofs.Nan.Finite
import ConicSaddle.Proofs.Nan.Solution

/-!
# Refined solutions and their residuals

A solution that refinement accepts has a residual of finite norm whenever refinement ended before its
steps were used up.  With the last step the candidate is taken without a test of its residual.

* `Refinement.Ends.finite_or_iterates`: what is known of a vector that was accepted;
* `Solver.exists_solve_refined`: a solve with refinement;
* `Session.refined_residual`: when a solve that succeeds has a residual of finite norm;
* `Session.untested_residual`: a solve that succeeds although its residual is infinite.
-/

namespace ConicSaddle

variable {α : Type} [Scalar α]

/-! ### The last vector -/

namespace Refinement

variable {n : ℕ} {R : Refinement n α} {left : ℕ} {x z : Vector α n} {accepted : Bool}

/-- The residual of a vector that ends refinement and is accepted is finite. -/
theorem Halts.finite [FiniteRules α] (halts : R.Halts x accepted z) (h : accepted = true) :
    Scalar.isFinite (R.residualNorm z) = true := by
  cases halts with
  | diverged => cases h
  | converged finite => exact finite
  | @stalled y tries =>
    unfold better
    split
    · next hsmaller =>
      -- a finite norm divided by one that is not finite would not be above one
      exact FiniteRules.isFinite_of_one_lt_div tries.finite hsmaller
    · exact tries.finite

/-- The residual of a vector that was accepted is finite, unless every step went on. -/
theorem Ends.finite_or_iterates [FiniteRules α] (ends : R.Ends left x accepted z)
    (h : accepted = true) :
    Scalar.isFinite (R.residualNorm z) = true ∨ R.Iterates left x z := by
  induction ends with
  | limit x => exact .inr (.refl x)
  | halt halts => exact .inl (halts.finite h)
  | step goes _ ih => exact (ih h).imp_right (.step goes)

/-- Whether acceptance means a finite residual is a question of the last step only. -/
theorem Ends.finite_iff [FiniteRules α] (ends : R.Ends left x accepted z) :
    (accepted = true → Scalar.isFinite (R.residualNorm z) = true) ↔
      (R.Iterates left x z → Vec.isFinite z.toArray = true →
        Scalar.isFinite (R.residualNorm z) = true) := by
  constructor
  · intro h iterates hz
    obtain ⟨haccepted, -⟩ := iterates.ends ends
    exact h (haccepted.trans hz)
  · intro h haccepted
    rcases ends.finite_or_iterates haccepted with hfinite | iterates
    · exact hfinite
    · obtain ⟨hz, -⟩ := iterates.ends ends
      exact h iterates (hz.symm.trans haccepted)

end Refinement

/-! ### A solve -/

namespace Solver

variable {P : Problem α}

/-- A solve with a handle that is accepted refines, and its answer is the verdict on the vector that
refinement ends with. -/
theorem exists_solve_refined {S : Solver P} (refined : P.settings.refine = true)
    (hwork : P.dims.maxOrder ≤ S.workspace.order) (hsplits : S.record.Splits 0)
    {handle : Handle α} (hW : handle.scaling.checkDims P.dims P.mnl = .ok ())
    (accepted : S.checkHandle handle = .ok ()) {rhs : Rhs α} (hrhs : P.checkRhs rhs = .ok ()) :
    ∃ out L u verdict, S.solve handle rhs = .ok out ∧
      S.load handle.scaling rhs = .ok ⟨.ok (), L⟩ ∧ L.Refines out.state.1 u verdict ∧
      if verdict then
        out.answer = .ok () ∧ out.state.1.unload rhs = .ok ⟨.ok (), out.state.2⟩
      else out.answer = .error .nonFiniteSolution := by
  obtain ⟨blocks, hblocks⟩ := exists_blocks hW
  obtain ⟨L, hload, -⟩ := exists_load hW hblocks hrhs S hwork
  obtain ⟨-, hsame⟩ := load_keeps hload
  have hL : L.record.Splits 0 := by rwa [hsame.record_eq]
  obtain ⟨verdict, T, events, u, hpacked, hrefines⟩ := exists_solvePacked_refined refined hL
  cases verdict with
  | false =>
    exact ⟨_, L, u, false, solve_of_nonFinite accepted hrhs hload hpacked, hload,
      hrefines.of_status .failed, rfl⟩
  | true =>
    obtain ⟨found, hunload, -⟩ := exists_unload T hrhs
    exact ⟨_, L, u, true, solve_of_solved accepted hrhs hload hpacked hunload, hload, hrefines, rfl,
      hunload⟩

end Solver

/-! ### In a run -/

namespace Session

variable {s : Session α} {history : List (Moment α)}

/-- **Which refined solutions have a finite residual.**  In any state of a session, let solutions of
a solver be refined, whatever the tolerances, the stop ratio and the number of steps are.  A solve
with a handle that is accepted succeeds or answers that the solution is not finite.  That success
means that the residual of the packed solution has a finite norm can fail in one way only: every
step goes on, the entries of the last vector are finite, and its residual, which no test looks at, is
not. -/
theorem refined_residual [Ldl.PivotRules α] [FiniteRules α] (run : Run history s) {id : ℕ}
    (hid : id < s.solvers.size) {handle : Handle α} {rhs : Rhs α}
    (issued : ∃ j W H Df t, ⟨.factor j W H Df (.ok handle), t⟩ ∈ history)
    (accepted : s.solvers[id].solver.checkHandle handle = .ok ())
    (sizes : s.solvers[id].problem.checkRhs rhs = .ok ())
    (refined : s.solvers[id].problem.settings.refine = true) :
    let P := s.solvers[id].problem
    ∃ (out : Outcome Unit (Session α × Rhs α)) (L T : Solver P) (u r : Vector α P.order)
      (verdict : Bool),
      s.solve ⟨id, hid⟩ handle rhs = .ok out ∧
      s.solvers[id].solver.load handle.scaling rhs = .ok ⟨.ok (), L⟩ ∧ L.Refines T u verdict ∧
      out.state.1.solvers[id]? = some ⟨P, T⟩ ∧ T.refinement.residualOf T.u = .ok r ∧
      (out.answer = .ok () ∧ T.unload rhs = .ok ⟨.ok (), out.state.2⟩ ∨
        out.answer = .error .nonFiniteSolution) ∧
      ((out.answer = .ok () → Scalar.isFinite (Vec.normInf r.toArray) = true) ↔
        (T.refinement.Iterates P.settings.maxSteps u T.u → Vec.isFinite T.u.toArray = true →
          Scalar.isFinite (Vec.normInf r.toArray) = true)) := by
  have hX : s.solvers[id]? = some s.solvers[id] := Array.getElem?_eq_getElem hid
  generalize s.solvers[id] = X at hX accepted sizes refined
  obtain ⟨P, S⟩ := X
  have hsplits := run.splits hX (Solver.status_of_accepted accepted)
  obtain ⟨out, L, u, verdict, hsolve, hload, hrefines, hanswer⟩ :=
    Solver.exists_solve_refined refined (run.workspace hX) hsplits
      (run.scaling_fits hX issued accepted) accepted sizes
  refine ⟨_, L, out.state.1, u, out.state.1.refinement.residual out.state.1.u, verdict,
    solve_of_solver (j := ⟨id, hid⟩) hX hsolve, hload, hrefines, ?_,
    Refinement.residualOf_eq_ok _ _, ?_, ?_⟩
  · rw [Array.getElem?_set, if_pos rfl]
  · cases verdict with
    | false => exact .inr hanswer
    | true => exact .inl hanswer
  · have hsuccess : out.answer = .ok () ↔ verdict = true := by
      cases verdict with
      | false =>
        rw [show out.answer = .error .nonFiniteSolution from hanswer]
        exact ⟨nofun, nofun⟩
      | true => exact ⟨fun _ => rfl, fun _ => hanswer.1⟩
    exact (imp_congr_left hsuccess).trans hrefines.ends.finite_iff

/-! ### A residual that is not tested -/

/-- The problem with two variables, whose solutions are refined by one step at most. -/
def refinedOnce : Problem Float :=
  { twoVariables with settings := { (Settings.standard : Settings Float) with
      refine := true
      maxSteps := 1 } }

/-- A Hessian whose rows nearly agree. -/
def nearlySingular : Option (Matrix Float) :=
  some ⟨2, 2, ⟨#v[1.375, 1.375, 1.375, .ofBits 0x3FF5FFFEC0000000]⟩⟩

/-- A right hand side so large that the solution is next to the largest values. -/
def hugeRhs : Rhs Float := ⟨#[0, .ofBits 0xFEAD1745D1745D16], #[], #[]⟩

/-- Whether the solve succeeds, and whether the residual that it leaves has a finite norm. -/
def refinedOnceSolve : Checked (Option (Bool × Bool)) := do
  let S ← Solver.new refinedOnce 0
  let factored ← S.factor noScaling nearlySingular none
  match factored.answer with
  | .error _ => pure none
  | .ok handle =>
    let solved ← factored.state.solve handle hugeRhs
    let T := solved.state.1
    let r ← T.refinement.residualOf T.u
    pure (some (solved.answer.isOk, Scalar.isFinite (Vec.normInf r.toArray)))

/-- A run that leaves one solver, which accepts the handle of its factorization and succeeds with a
residual that is not finite. -/
theorem exists_run_refinedOnce :
    ∃ (history : List (Moment Float)) (U : Solver refinedOnce) (handle : Handle Float)
      (solved : Outcome Unit (Solver refinedOnce × Rhs Float)),
      Run history ⟨#[⟨refinedOnce, U⟩]⟩ ∧
      (∃ j W H Df t, ⟨.factor j W H Df (.ok handle), t⟩ ∈ history) ∧
      U.checkHandle handle = .ok () ∧ U.solve handle hugeRhs = .ok solved ∧
      solved.answer = .ok () ∧
      ∃ r, solved.state.1.refinement.residualOf solved.state.1.u = .ok r ∧
        Scalar.isFinite (Vec.normInf r.toArray) = false := by
  have hdone : refinedOnceSolve = .ok (some (true, false)) := by decide +kernel
  obtain ⟨S, hnew, hdone⟩ := Checked.bind_eq_ok.mp hdone
  obtain ⟨factored, hfactor, hdone⟩ := Checked.bind_eq_ok.mp hdone
  obtain ⟨S', hnew', hcreate⟩ : ∃ S', Solver.new refinedOnce 0 = .ok S' ∧
      Session.empty.create refinedOnce.G refinedOnce.dims refinedOnce.A 0 refinedOnce.settings =
        .ok ⟨.ok 0, ⟨#[⟨refinedOnce, S'⟩]⟩, [Solver.created refinedOnce]⟩ := ⟨_, rfl, rfl⟩
  cases hnew.symm.trans hnew'
  cases hanswer : factored.answer with
  | error e =>
    rw [hanswer] at hdone
    cases hdone
  | ok handle =>
    obtain ⟨history, run, issued, accepted⟩ := exists_run_issued hcreate hfactor hanswer
    simp only [hanswer] at hdone
    obtain ⟨solved, hsolve, hdone⟩ := Checked.bind_eq_ok.mp hdone
    obtain ⟨r, hr, hdone⟩ := Checked.bind_eq_ok.mp hdone
    obtain ⟨hok, hinfinite⟩ := Prod.mk.inj (Option.some.inj (Except.ok.inj hdone))
    refine ⟨history, factored.state, handle, solved, run, ⟨0, _, _, _, _, issued⟩, accepted, hsolve,
      ?_, r, hr, hinfinite⟩
    cases h : solved.answer with
    | error e =>
      rw [h] at hok
      cases hok
    | ok u => rfl

/-- The solve succeeds, and the norm of the residual of its solution is not finite. -/
theorem untested_residual :
    ∃ (history : List (Moment Float)) (U : Solver refinedOnce) (handle : Handle Float)
      (out : Outcome Unit (Session Float × Rhs Float)) (T : Solver refinedOnce)
      (r : Vector Float refinedOnce.order),
      Run history ⟨#[⟨refinedOnce, U⟩]⟩ ∧
      (∃ j W H Df t, ⟨.factor j W H Df (.ok handle), t⟩ ∈ history) ∧
      refinedOnce.settings.refine = true ∧
      Session.solve ⟨#[⟨refinedOnce, U⟩]⟩ ⟨0, Nat.one_pos⟩ handle hugeRhs = .ok out ∧
      out.answer = .ok () ∧ out.state.1.solvers[0]? = some ⟨refinedOnce, T⟩ ∧
      T.refinement.residualOf T.u = .ok r ∧ Scalar.isFinite (Vec.normInf r.toArray) = false := by
  obtain ⟨history, U, handle, solved, run, issued, -, hsolve, hok, r, hr, hinfinite⟩ :=
    exists_run_refinedOnce
  exact ⟨history, U, handle, _, solved.state.1, r, run, issued, rfl,
    solve_of_solver (s := ⟨#[⟨refinedOnce, U⟩]⟩) rfl hsolve, hok, rfl, hr, hinfinite⟩

/-- In that solve the only step goes on, to a vector with finite entries. -/
theorem refined_residual_once :
    ∃ (history : List (Moment Float)) (U : Solver refinedOnce) (handle : Handle Float)
      (out : Outcome Unit (Session Float × Rhs Float)) (T : Solver refinedOnce)
      (u : Vector Float refinedOnce.order),
      Run history ⟨#[⟨refinedOnce, U⟩]⟩ ∧
      Session.solve ⟨#[⟨refinedOnce, U⟩]⟩ ⟨0, Nat.one_pos⟩ handle hugeRhs = .ok out ∧
      out.state.1.solvers[0]? = some ⟨refinedOnce, T⟩ ∧ T.refinement.Iterates 1 u T.u ∧
      Vec.isFinite T.u.toArray = true := by
  obtain ⟨history, U, handle, solved, run, issued, accepted, hsolve, hok, r, hr, hinfinite⟩ :=
    exists_run_refinedOnce
  have hcall := solve_of_solver (s := ⟨#[⟨refinedOnce, U⟩]⟩) (j := ⟨0, Nat.one_pos⟩) rfl hsolve
  have sizes : refinedOnce.checkRhs hugeRhs = .ok () := rfl
  obtain ⟨out, L, T, u, r', verdict, hsolve', -, -, hT, hr', -, hfinite⟩ :=
    refined_residual run Nat.one_pos issued accepted sizes rfl
  cases hcall.symm.trans hsolve'
  cases hT
  cases hr.symm.trans hr'
  have hfails : ¬(solved.answer = .ok () → Scalar.isFinite (Vec.normInf r.toArray) = true) := by
    intro h
    cases hinfinite.symm.trans (h hok)
  -- so the last step is to blame
  obtain ⟨iterates, hfails⟩ := Classical.not_imp.mp (mt hfinite.mpr hfails)
  obtain ⟨hentries, -⟩ := Classical.not_imp.mp hfails
  exact ⟨history, U, handle, _, _, u, run, hcall, rfl, iterates, hentries⟩

end Session

end ConicSaddle
