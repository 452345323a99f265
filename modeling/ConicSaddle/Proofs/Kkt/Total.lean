import ConicSaddle.Proofs.Kkt.Factors
import ConicSaddle.Proofs.Kkt.Refinement
import ConicSaddle.Proofs.Nan.Rules

/-!
# Calls that always answer

No call of a solver in a run ends in a fault, whatever the sizes and the numbers of its operands
are.  Nothing is assumed of the arithmetic but that a pivot of order two stays out of the last
column, and that only where a matrix is factored.

* `Solver.exists_solvePacked`: with a record that splits the columns, every right hand side is
  answered;
* `Session.Run.splits`: a solver that holds a factorization has such a record;
* `Solver.exists_factor_total`, `Solver.exists_solve_total`: the two calls;
* `Session.calls_answer`: the statement for every reachable state.
-/

namespace ConicSaddle

variable {α : Type} [Scalar α]

/-! ### A solver -/

namespace Solver

variable {P : Problem α} {W : Scaling α} {H Df : Option (Matrix α)}

theorem new_status {S : Solver P} {id : ℕ} (done : Solver.new P id = .ok S) :
    S.status = .unfactored := by
  simp only [new, Checked.bind_eq_ok] at done
  obtain ⟨-, -, -, -, workspace, -, done⟩ := done
  cases done
  rfl

omit [Scalar α] in
/-- Only a solver that holds a factorization accepts a handle. -/
theorem status_of_accepted {S : Solver P} {handle : Handle α}
    (accepted : S.checkHandle handle = .ok ()) : S.status = .factored := by
  unfold checkHandle at accepted
  split at accepted
  · cases accepted
  · split at accepted
    · cases accepted
    · split at accepted
      · cases accepted
      · next h => exact not_not.mp h

/-- The packed system is solved, and the solution is refined or judged. -/
theorem exists_solvePacked {S : Solver P} (h : S.record.Splits 0) :
    ∃ found, S.solvePacked = .ok found := by
  by_cases hrefine : P.settings.refine = true
  · obtain ⟨verdict, T, events, u, hpacked, -⟩ := exists_solvePacked_refined hrefine h
    exact ⟨_, hpacked⟩
  · obtain ⟨u, hu⟩ := Ldl.exists_solves (A := S.K) h S.u
    rw [solvePacked, Ldl.solveGrid_of_solves hu, Checked.ok_bind]
    simp only [if_neg hrefine]
    exact ⟨_, rfl⟩

/-- A scaling of the wrong size is refused when a right hand side is loaded. -/
theorem load_of_refused {S : Solver P} {rhs : Rhs α} (hrhs : P.checkRhs rhs = .ok ())
    {e : DimensionError} (hW : W.checkDims P.dims P.mnl = .error e) :
    ∃ T, S.load W rhs = .ok ⟨.error e, T⟩ := by
  obtain ⟨hx, hy, hz⟩ := lengths_of_checkRhs hrhs
  have horder : P.order = P.vars + P.eqs + P.coneRows := rfl
  obtain ⟨u₁, hu₁, -⟩ := Vec.exists_splice S.u 0 rhs.x (by omega)
  obtain ⟨u₂, hu₂, -⟩ := Vec.exists_splice u₁ P.vars rhs.y (by omega)
  have hscale : W.scale (⟨rhs.z, hz⟩ : Vector α P.rows) P.dims P.mnl ⟨true, true⟩ S.workspace =
      .ok ⟨.error e, (⟨rhs.z, hz⟩, S.workspace)⟩ := by
    rw [Scaling.scale, hW]
    rfl
  refine ⟨{ S with u := u₂, g := ⟨rhs.z, hz⟩ }, ?_⟩
  simp only [load, hu₁, hu₂, sized_eq_ok hz, hscale, Checked.ok_bind, Checked.pure_eq_ok]

/-- A factorization answers: it refuses the sizes, hands out a handle, or names a column that
counted as zero. -/
theorem exists_factor_total [Ldl.PivotRules α] {S : Solver P}
    (hwork : P.dims.maxOrder ≤ S.workspace.order) (W : Scaling α) (H Df : Option (Matrix α)) :
    ∃ out, S.factor W H Df = .ok out ∧ (P.checkInputs W H Df = .ok () →
      (∃ handle, out.answer = .ok handle) ∨
        ∃ k : ℕ, 1 ≤ k ∧ k ≤ P.order ∧ out.answer = .error (.factorization k)) := by
  cases hchecked : P.checkInputs W H Df with
  | error e => exact ⟨_, factor_of_refused S hchecked, nofun⟩
  | ok u =>
    obtain ⟨blocks, hblocks⟩ := exists_blocks (Problem.accepts_of_checkInputs hchecked).scaling
    obtain ⟨out, K, record, t, hfactor, -, hsweep, -, -, -, -, hanswer⟩ :=
      exists_factor hchecked hblocks S hwork
    refine ⟨out, hfactor, fun _ => ?_⟩
    by_cases hinfo : t.info = 0
    · rw [if_pos hinfo] at hanswer
      exact .inl ⟨_, hanswer⟩
    · rw [if_neg hinfo] at hanswer
      exact .inr ⟨t.info, Nat.pos_of_ne_zero hinfo, hsweep.info_le (Nat.zero_le _), hanswer⟩

/-- A solve answers.  Behind the checks of the handle and of the lengths only a solution that is not
finite is an error, for a scaling whose sizes fit. -/
theorem exists_solve_total {S : Solver P} (hwork : P.dims.maxOrder ≤ S.workspace.order)
    (hsplits : S.status = .factored → S.record.Splits 0) (handle : Handle α) (rhs : Rhs α) :
    ∃ out, S.solve handle rhs = .ok out ∧
      (S.checkHandle handle = .ok () → P.checkRhs rhs = .ok () →
        handle.scaling.checkDims P.dims P.mnl = .ok () →
        out.answer = .ok () ∨ out.answer = .error .nonFiniteSolution) := by
  cases hcheck : S.checkHandle handle with
  | error rejection =>
    obtain ⟨e, events⟩ := rejection
    refine ⟨_, solve_of_rejected hcheck rhs, fun h => ?_⟩
    cases h
  | ok u =>
  cases hrhs : P.checkRhs rhs with
  | error e =>
    refine ⟨_, solve_of_wrongLength hcheck hrhs, fun _ h => ?_⟩
    cases h
  | ok u =>
  cases hW : handle.scaling.checkDims P.dims P.mnl with
  | error e =>
    obtain ⟨T, hload⟩ := load_of_refused (S := S) hrhs hW
    refine ⟨_, solve_of_unscaled hcheck hrhs hload, fun _ _ h => ?_⟩
    cases h
  | ok u =>
  obtain ⟨blocks, hblocks⟩ := exists_blocks hW
  obtain ⟨L, hload, -⟩ := exists_load hW hblocks hrhs S hwork
  obtain ⟨-, hsame⟩ := load_keeps hload
  have hL : L.record.Splits 0 := by
    rw [hsame.record_eq]
    exact hsplits (status_of_accepted hcheck)
  obtain ⟨⟨accepted, T, events⟩, hpacked⟩ := exists_solvePacked hL
  cases accepted with
  | false => exact ⟨_, solve_of_nonFinite hcheck hrhs hload hpacked, fun _ _ _ => .inr rfl⟩
  | true =>
    obtain ⟨found, hunload, -⟩ := exists_unload T hrhs
    exact ⟨_, solve_of_solved hcheck hrhs hload hpacked hunload, fun _ _ _ => .inl rfl⟩

end Solver

/-! ### In a run -/

namespace Session

variable {s t : Session α} {history : List (Moment α)} {P : Problem α} {S : Solver P} {id : ℕ}

/-- A solver that holds a factorization has a record that splits its columns. -/
theorem Run.splits (run : Run history s) (hS : s.solvers[id]? = some ⟨P, S⟩)
    (hstatus : S.status = .factored) : S.record.Splits 0 := by
  refine run.invariant (fun P S => S.status = .factored → S.record.Splits 0) ?_ ?_ ?_ hS hstatus
  · intro P S _ done hstatus
    cases (Solver.new_status done).symm.trans hstatus
  · intro P S W H Df out hsplits done hstatus
    cases Solver.factorEnd_of_factor done with
    | refused => exact hsplits hstatus
    | unassembled _ assembled =>
      cases (Solver.assemble_standing assembled).status_eq.symm.trans hstatus
    | zeroPivot _ assembled =>
      cases (Solver.assemble_standing assembled).status_eq.symm.trans hstatus
    | factored _ _ factored answer =>
      exact (Ldl.sweeps_of_factorGrid factored answer).splits
  · intro P S handle rhs out hsplits done hstatus
    obtain ⟨-, -, hsame, ⟨-, hfailed⟩ | ⟨-, hkept⟩⟩ := Solver.solve_keeps done
    · cases hfailed.symm.trans hstatus
    · rw [hsame.record_eq]
      exact hsplits (hkept.symm.trans hstatus)

/-- **No call faults.**  In any state of a session, and for operands of any sizes and any numbers,
every factorization and every solve comes to an answer.  Behind the dimension checks a factorization
hands out a handle or names a column of the matrix that counted as zero.  Behind the checks of a
handle that was issued and of the lengths, a solve succeeds or answers that the solution is not
finite. -/
theorem calls_answer [Ldl.PivotRules α] (run : Run history s) (hid : id < s.solvers.size) :
    let P := s.solvers[id].problem
    (∀ W H Df, ∃ out, s.factor ⟨id, hid⟩ W H Df = .ok out ∧
      (P.checkInputs W H Df = .ok () → (∃ handle, out.answer = .ok handle) ∨
        ∃ k : ℕ, 1 ≤ k ∧ k ≤ P.order ∧ out.answer = .error (.factorization k))) ∧
    ∀ handle rhs, ∃ out, s.solve ⟨id, hid⟩ handle rhs = .ok out ∧
      ((∃ j W H Df t, ⟨.factor j W H Df (.ok handle), t⟩ ∈ history) →
        s.solvers[id].solver.checkHandle handle = .ok () → P.checkRhs rhs = .ok () →
        out.answer = .ok () ∨ out.answer = .error .nonFiniteSolution) := by
  have hX : s.solvers[id]? = some s.solvers[id] := Array.getElem?_eq_getElem hid
  generalize s.solvers[id] = X at hX
  obtain ⟨P, S⟩ := X
  have hwork := run.workspace hX
  constructor
  · intro W H Df
    obtain ⟨out, hfactor, hanswer⟩ := Solver.exists_factor_total hwork W H Df
    exact ⟨_, factor_of_solver (j := ⟨id, hid⟩) hX hfactor, hanswer⟩
  · intro handle rhs
    obtain ⟨out, hsolve, hanswer⟩ :=
      Solver.exists_solve_total hwork (run.splits hX) handle rhs
    refine ⟨_, solve_of_solver (j := ⟨id, hid⟩) hX hsolve, ?_⟩
    rintro ⟨j, W, H, Df, t, hmem⟩ accepted hrhs
    obtain ⟨later, earlier, rfl⟩ := List.append_of_mem hmem
    obtain rfl := run.issuer_eq hX accepted
    obtain ⟨hscaling, K, hK⟩ := run.holds hX accepted
    refine hanswer accepted hrhs ?_
    rw [hscaling]
    exact (Problem.accepts_of_checkInputs hK.checked).scaling

/-- After a factorization no call of the session with one variable faults. -/
theorem calls_answer_oneVariable :
    ∃ (history : List (Moment Float)) (s : Session Float) (id : ℕ) (hid : id < s.solvers.size)
      (handle : Handle Float), Run history s ∧
      (∃ j W H Df t, ⟨.factor j W H Df (.ok handle), t⟩ ∈ history) ∧
      (∀ W H Df, ∃ out, s.factor ⟨id, hid⟩ W H Df = .ok out) ∧
      ∀ handle rhs, ∃ out, s.solve ⟨id, hid⟩ handle rhs = .ok out := by
  have hdone : oneFactorization = .ok true := by decide +kernel
  obtain ⟨made, hmade, hdone⟩ := Checked.bind_eq_ok.mp hdone
  by_cases h : 0 < made.state.solvers.size
  · rw [dif_pos h] at hdone
    obtain ⟨factored, hfactored, hdone⟩ := Checked.bind_eq_ok.mp hdone
    have step := Step.factor ⟨0, h⟩ hfactored
    have hid : 0 < factored.state.solvers.size := Nat.lt_of_lt_of_le h step.size_le
    have run := (Run.start.next (.create hmade)).next step
    cases hanswer : factored.answer with
    | error e =>
      rw [hanswer] at hdone
      cases hdone
    | ok handle =>
      rw [hanswer] at run
      obtain ⟨hfactor, hsolve⟩ := calls_answer run hid
      refine ⟨_, _, 0, hid, handle, run, ⟨0, _, _, _, _, List.mem_cons_self⟩, ?_, ?_⟩
      · intro W H Df
        obtain ⟨out, hout, -⟩ := hfactor W H Df
        exact ⟨out, hout⟩
      · intro handle rhs
        obtain ⟨out, hout, -⟩ := hsolve handle rhs
        exact ⟨out, hout⟩
  · rw [dif_neg h] at hdone
    cases hdone

end Session

end ConicSaddle
