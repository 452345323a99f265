import ConicSaddle.Proofs.Kkt.Total

/-!
# Calls that fail

What a call of a solver that answers with an error leaves behind.  A factorization is refused before
anything is written.  A solve writes to its working storage first and to the right hand side last,
and the last step that could fail, which spreads the packed solution out, cannot fail any more.

* `Problem.refused_iff`, `Problem.checkRhs_refused_iff`: the sizes that are refused;
* `Solver.exists_factor_refusing`: a dimension error is a refusal, and leaves the solver alone;
* `Solver.rhs_of_error`: an error leaves the right hand side alone;
* `Solver.state_of_error`: an error other than a solution that is not finite leaves the solver
  alone;
* `Session.failed_calls_keep`: the statement for every reachable state.
-/

namespace ConicSaddle

variable {α : Type} {P : Problem α} {W : Scaling α} {H Df : Option (Matrix α)}

/-! ### Refused sizes -/

/-- The check of the sizes passes exactly for the sizes that the problem asks for. -/
theorem Problem.checkInputs_eq_ok_iff : P.checkInputs W H Df = .ok () ↔ P.Accepts W H Df := by
  refine ⟨accepts_of_checkInputs, fun h => ?_⟩
  have hnone : Df = none → checkInputs.checkNoJacobian P = .ok () := by
    intro hDf
    unfold checkInputs.checkNoJacobian
    rw [if_neg (by have := h.no_jacobian hDf; omega)]
  have hsizeH : ∀ M, H = some M → checkSize "H" M.size (P.vars, P.vars) = .ok () :=
    fun M hM => checkSize_eq_ok.mpr (h.hessian M hM)
  have hsizeDf : ∀ M, Df = some M → checkSize "Df" M.size (P.mnl, P.vars) = .ok () :=
    fun M hM => checkSize_eq_ok.mpr (h.jacobian M hM)
  cases H with
  | none =>
    cases Df with
    | none => exact check_then_eq_ok.mpr ⟨rfl, check_then_eq_ok.mpr ⟨hnone rfl, h.scaling⟩⟩
    | some Df =>
      exact check_then_eq_ok.mpr ⟨rfl, check_then_eq_ok.mpr ⟨hsizeDf Df rfl, h.scaling⟩⟩
  | some M =>
    cases Df with
    | none =>
      exact check_then_eq_ok.mpr ⟨hsizeH M rfl, check_then_eq_ok.mpr ⟨hnone rfl, h.scaling⟩⟩
    | some Df =>
      exact check_then_eq_ok.mpr
        ⟨hsizeH M rfl, check_then_eq_ok.mpr ⟨hsizeDf Df rfl, h.scaling⟩⟩

/-- The sizes are refused exactly for a Hessian or a Jacobian of another size, a Jacobian that is
missing, and a scaling whose sizes do not fit. -/
theorem Problem.refused_iff :
    (∃ e, P.checkInputs W H Df = .error e) ↔
      (∃ M, H = some M ∧ M.size ≠ (P.vars, P.vars)) ∨
      (∃ M, Df = some M ∧ M.size ≠ (P.mnl, P.vars)) ∨
      (Df = none ∧ 0 < P.mnl) ∨ ∃ e, W.checkDims P.dims P.mnl = .error e := by
  constructor
  · rintro ⟨e, he⟩
    by_contra! hsizes
    obtain ⟨hH, hDf, hnone, hW⟩ := hsizes
    have haccepts : P.Accepts W H Df := {
      hessian := hH
      jacobian := hDf
      no_jacobian := fun h => Nat.eq_zero_of_le_zero (hnone h)
      scaling := by
        cases hW' : W.checkDims P.dims P.mnl with
        | ok u => rfl
        | error e => exact absurd hW' (hW e) }
    cases he.symm.trans (checkInputs_eq_ok_iff.mpr haccepts)
  · intro hsizes
    cases hchecked : P.checkInputs W H Df with
    | error e => exact ⟨e, rfl⟩
    | ok u =>
      have h := accepts_of_checkInputs hchecked
      rcases hsizes with ⟨M, hM, hne⟩ | ⟨M, hM, hne⟩ | ⟨hnone, hpos⟩ | ⟨e, he⟩
      · exact absurd (h.hessian M hM) hne
      · exact absurd (h.jacobian M hM) hne
      · exact absurd (h.no_jacobian hnone) hpos.ne'
      · cases he.symm.trans h.scaling

/-- The lengths are refused exactly if one of them is wrong. -/
theorem Problem.checkRhs_refused_iff {rhs : Rhs α} : (∃ e, P.checkRhs rhs = .error e) ↔
    rhs.x.size ≠ P.vars ∨ rhs.y.size ≠ P.eqs ∨ rhs.z.size ≠ P.rows := by
  constructor
  · rintro ⟨e, he⟩
    by_contra! hlengths
    obtain ⟨hx, hy, hz⟩ := hlengths
    have hok : P.checkRhs rhs = .ok () :=
      check_then_eq_ok.mpr ⟨checkLength_eq_ok.mpr hx,
        check_then_eq_ok.mpr ⟨checkLength_eq_ok.mpr hy, checkLength_eq_ok.mpr hz⟩⟩
    cases he.symm.trans hok
  · intro hlengths
    cases hrhs : P.checkRhs rhs with
    | error e => exact ⟨e, rfl⟩
    | ok u =>
      obtain ⟨hx, hy, hz⟩ := Solver.lengths_of_checkRhs hrhs
      rcases hlengths with h | h | h
      · exact absurd hx h
      · exact absurd hy h
      · exact absurd hz h

namespace Solver

variable [Scalar α] {S : Solver P} {handle : Handle α} {rhs : Rhs α}

/-! ### Factoring -/

/-- A factorization answers with a dimension error only by refusing the sizes, and then leaves the
solver as it is. -/
theorem exists_factor_refusing [Ldl.PivotRules α] (hwork : P.dims.maxOrder ≤ S.workspace.order)
    (W : Scaling α) (H Df : Option (Matrix α)) :
    ∃ out, S.factor W H Df = .ok out ∧
      ((∃ e, out.answer = .error (.dimension e)) ↔ ∃ e, P.checkInputs W H Df = .error e) ∧
      ((∃ e, out.answer = .error (.dimension e)) → out.state = S ∧ out.events = []) := by
  obtain ⟨out, hfactor, hanswer⟩ := exists_factor_total hwork W H Df
  refine ⟨out, hfactor, ?_⟩
  cases hchecked : P.checkInputs W H Df with
  | error e =>
    rw [factor_of_refused S hchecked] at hfactor
    cases hfactor
    exact ⟨⟨fun _ => ⟨e, rfl⟩, fun _ => ⟨e, rfl⟩⟩, fun _ => ⟨rfl, rfl⟩⟩
  | ok u =>
    have hnone : ¬∃ e, out.answer = .error (.dimension e) := by
      rintro ⟨e, he⟩
      rcases hanswer hchecked with ⟨issued, hissued⟩ | ⟨k, -, -, hk⟩
      · cases he.symm.trans hissued
      · cases he.symm.trans hk
    exact ⟨⟨fun h => absurd h hnone, nofun⟩, fun h => absurd h hnone⟩

/-! ### Solving -/

/-- A solve that answers with an error leaves the right hand side as it is.  The parts are replaced
together, behind the last step that could fail. -/
theorem rhs_of_error {out : Outcome Unit (Solver P × Rhs α)}
    (done : S.solve handle rhs = .ok out) {e : KktError} (failed : out.answer = .error e) :
    out.state.2 = rhs := by
  cases solveEnd_of_solve done with
  | rejected => rfl
  | wrongLength => rfl
  | unscaled => rfl
  | nonFinite => rfl
  | @unloaded T U events reply _ hrhs _ _ hunload =>
    -- the lengths were checked, so the solution has a place to go to
    obtain ⟨found, hunload', -⟩ := exists_unload U hrhs
    cases hunload'.symm.trans hunload
    cases failed

/-- For a scaling whose sizes fit, an error other than a solution that is not finite comes from the
checks of the handle and of the lengths, and leaves the solver as it is. -/
theorem state_of_error (hwork : P.dims.maxOrder ≤ S.workspace.order)
    (hW : S.checkHandle handle = .ok () → handle.scaling.checkDims P.dims P.mnl = .ok ())
    {out : Outcome Unit (Solver P × Rhs α)} (done : S.solve handle rhs = .ok out) {e : KktError}
    (failed : out.answer = .error e) (hfinite : e ≠ .nonFiniteSolution) : out.state.1 = S := by
  cases solveEnd_of_solve done with
  | rejected => rfl
  | wrongLength => rfl
  | unscaled accepted hrhs loaded =>
    obtain ⟨blocks, hblocks⟩ := exists_blocks (hW accepted)
    obtain ⟨T, hload, -⟩ := exists_load (hW accepted) hblocks hrhs S hwork
    cases hload.symm.trans loaded
  | nonFinite =>
    cases failed
    exact absurd rfl hfinite
  | @unloaded T U events reply _ hrhs _ _ hunload =>
    obtain ⟨found, hunload', -⟩ := exists_unload U hrhs
    cases hunload'.symm.trans hunload
    cases failed

end Solver

/-! ### In a run -/

namespace Session

variable [Scalar α] {s : Session α} {history : List (Moment α)} {id : ℕ}

/-- **Failed calls leave the state intact.**  In any state of a session and for all operands, a
factorization answers with a dimension error exactly if the Hessian or the Jacobian has another size
than the problem asks for, a Jacobian is missing, or the sizes of the scaling do not fit.  The
session is then as it was, and every handle is answered as before.  A solve that answers with an
error leaves the right hand side as it was.  A handle that is rejected and parts of the wrong length
leave the session as it was too, as does, for a handle that was issued, every error but a solution
that is not finite.  That one leaves the other solvers alone, and in its own solver the problem, the
number, the generation, the factors with their pivots and the copy, and takes the status away. -/
theorem failed_calls_keep [Ldl.PivotRules α] (run : Run history s) (hid : id < s.solvers.size) :
    let P := s.solvers[id].problem
    let S := s.solvers[id].solver
    (∀ W H Df, ∃ out, s.factor ⟨id, hid⟩ W H Df = .ok out ∧
      ((∃ e, out.answer = .error (.dimension e)) ↔
        (∃ M, H = some M ∧ M.size ≠ (P.vars, P.vars)) ∨
        (∃ M, Df = some M ∧ M.size ≠ (P.mnl, P.vars)) ∨
        (Df = none ∧ 0 < P.mnl) ∨ ∃ e, W.checkDims P.dims P.mnl = .error e) ∧
      ((∃ e, out.answer = .error (.dimension e)) → out.state = s ∧
        ∀ (hid' : id < out.state.solvers.size) (handle : Handle α) (rhs : Rhs α),
          out.state.solve ⟨id, hid'⟩ handle rhs = s.solve ⟨id, hid⟩ handle rhs)) ∧
    ∀ handle rhs, ∃ out, s.solve ⟨id, hid⟩ handle rhs = .ok out ∧
      (∀ e, out.answer = .error e → out.state.2 = rhs) ∧
      ((∃ e, S.checkHandle handle = .error e) ∨
          rhs.x.size ≠ P.vars ∨ rhs.y.size ≠ P.eqs ∨ rhs.z.size ≠ P.rows →
        (∃ e, out.answer = .error e) ∧ out.state.1 = s) ∧
      ((∃ j W H Df t, ⟨.factor j W H Df (.ok handle), t⟩ ∈ history) →
        ∀ e, out.answer = .error e → e ≠ .nonFiniteSolution → out.state.1 = s) ∧
      (out.answer = .error .nonFiniteSolution →
        (∃ T : Solver P, out.state.1.solvers[id]? = some ⟨P, T⟩ ∧ T.id = S.id ∧
          T.generation = S.generation ∧ S.SameFactors T ∧ T.status = .failed) ∧
        ∀ j ≠ id, out.state.1.solvers[j]? = s.solvers[j]?) := by
  have hX : s.solvers[id]? = some s.solvers[id] := Array.getElem?_eq_getElem hid
  generalize s.solvers[id] = X at hX
  obtain ⟨P, S⟩ := X
  have hwork := run.workspace hX
  constructor
  · intro W H Df
    obtain ⟨out, hfactor, hrefused, hkept⟩ := Solver.exists_factor_refusing hwork W H Df
    refine ⟨_, factor_of_solver (j := ⟨id, hid⟩) hX hfactor, hrefused.trans Problem.refused_iff, ?_⟩
    intro hdimension
    have hstate : (⟨s.solvers.set id ⟨P, out.state⟩⟩ : Session α) = s := by
      rw [(hkept hdimension).1, set_solver (j := ⟨id, hid⟩) hX]
    have hsolves : ∀ (t : Session α) (ht : id < t.solvers.size), t = s →
        ∀ handle rhs, t.solve ⟨id, ht⟩ handle rhs = s.solve ⟨id, hid⟩ handle rhs := by
      rintro t ht rfl handle rhs
      rfl
    exact ⟨hstate, fun hid' => hsolves _ hid' hstate⟩
  · intro handle rhs
    obtain ⟨out, hsolve, -⟩ := Solver.exists_solve_total hwork (run.splits hX) handle rhs
    refine ⟨_, solve_of_solver (j := ⟨id, hid⟩) hX hsolve, ?_, ?_, ?_, ?_⟩
    · intro e failed
      exact Solver.rhs_of_error hsolve failed
    · intro hrefused
      suffices h : (∃ e, out.answer = .error e) ∧ out.state.1 = S by
        refine ⟨h.1, ?_⟩
        rw [h.2, set_solver (j := ⟨id, hid⟩) hX]
      cases hcheck : S.checkHandle handle with
      | error rejection =>
        obtain ⟨e, events⟩ := rejection
        cases (Solver.solve_of_rejected hcheck rhs).symm.trans hsolve
        exact ⟨⟨e, rfl⟩, rfl⟩
      | ok u =>
        rcases hrefused with ⟨e, he⟩ | hlengths
        · cases he.symm.trans hcheck
        · obtain ⟨e, he⟩ := Problem.checkRhs_refused_iff.mpr hlengths
          cases (Solver.solve_of_wrongLength hcheck he).symm.trans hsolve
          exact ⟨⟨_, rfl⟩, rfl⟩
    · rintro ⟨j, W, H, Df, t, hmem⟩ e failed hfinite
      obtain ⟨later, earlier, rfl⟩ := List.append_of_mem hmem
      have hW : S.checkHandle handle = .ok () →
          handle.scaling.checkDims P.dims P.mnl = .ok () := by
        intro accepted
        obtain rfl := run.issuer_eq hX accepted
        obtain ⟨hscaling, K, hK⟩ := run.holds hX accepted
        rw [hscaling]
        exact (Problem.accepts_of_checkInputs hK.checked).scaling
      have hstate := Solver.state_of_error hwork hW hsolve failed hfinite
      show (⟨s.solvers.set id ⟨P, out.state.1⟩⟩ : Session α) = s
      rw [hstate, set_solver (j := ⟨id, hid⟩) hX]
    · intro hnonFinite
      obtain ⟨hnumber, hgeneration, hsame, hstatus⟩ := Solver.solve_keeps hsolve
      refine ⟨⟨out.state.1, ?_, hnumber, hgeneration, hsame, ?_⟩, fun j hj => ?_⟩
      · rw [Array.getElem?_set, if_pos rfl]
      · rcases hstatus with ⟨-, hfailed⟩ | ⟨hne, -⟩
        · exact hfailed
        · exact absurd hnonFinite hne
      · rw [Array.getElem?_set, if_neg (Ne.symm hj)]

/-- A run in which the session with one variable has just issued a handle. -/
theorem exists_issued :
    ∃ (s : Session Float) (W : Scaling Float) (H Df : Option (Matrix Float))
      (handle : Handle Float) (earlier : List (Moment Float)),
      Run (⟨.factor 0 W H Df (.ok handle), s⟩ :: earlier) s ∧ 0 < s.solvers.size := by
  have hdone : oneFactorization = .ok true := by decide +kernel
  obtain ⟨made, hmade, hdone⟩ := Checked.bind_eq_ok.mp hdone
  by_cases h : 0 < made.state.solvers.size
  · rw [dif_pos h] at hdone
    obtain ⟨factored, hfactored, hdone⟩ := Checked.bind_eq_ok.mp hdone
    have step := Step.factor ⟨0, h⟩ hfactored
    have run := (Run.start.next (.create hmade)).next step
    cases hanswer : factored.answer with
    | error e =>
      rw [hanswer] at hdone
      cases hdone
    | ok handle =>
      rw [hanswer] at run
      exact ⟨_, _, _, _, handle, _, run, Nat.lt_of_lt_of_le h step.size_le⟩
  · rw [dif_neg h] at hdone
    cases hdone

/-- After a factorization, a Hessian with a row too many and a right hand side with an entry too
many are refused, and the session stays as it is. -/
theorem failed_calls_keep_tooLong :
    ∃ (history : List (Moment Float)) (s : Session Float) (id : ℕ) (hid : id < s.solvers.size)
      (handle : Handle Float), Run history s ∧
      (∃ j W H Df t, ⟨.factor j W H Df (.ok handle), t⟩ ∈ history) ∧
      let n := s.solvers[id].problem.vars
      (∀ W Df, ∃ out e, s.factor ⟨id, hid⟩ W (some ⟨n + 1, n, .replicate _ _ 0⟩) Df = .ok out ∧
        out.answer = .error (.dimension e) ∧ out.state = s) ∧
      ∀ y z, ∃ out e, s.solve ⟨id, hid⟩ handle ⟨.replicate (n + 1) 0, y, z⟩ = .ok out ∧
        out.answer = .error e ∧ out.state = (s, ⟨.replicate (n + 1) 0, y, z⟩) := by
  obtain ⟨s, W₀, H₀, Df₀, handle, earlier, run, hid⟩ := exists_issued
  obtain ⟨hfactor, hsolve⟩ := failed_calls_keep run hid
  refine ⟨_, s, 0, hid, handle, run, ⟨0, W₀, H₀, Df₀, s, List.mem_cons_self⟩, ?_, ?_⟩
  · intro W Df
    obtain ⟨out, hout, hrefused, hkept⟩ := hfactor W (some ⟨_ + 1, _, .replicate _ _ 0⟩) Df
    have hanswer := hrefused.mpr (.inl ⟨_, rfl, fun h => Nat.succ_ne_self _ (congrArg Prod.fst h)⟩)
    obtain ⟨e, he⟩ := hanswer
    exact ⟨out, e, hout, he, (hkept ⟨e, he⟩).1⟩
  · intro y z
    obtain ⟨out, hout, hrhs, hrefused, -⟩ := hsolve handle ⟨.replicate (_ + 1) 0, y, z⟩
    obtain ⟨⟨e, he⟩, hstate⟩ := hrefused (.inr (.inl (by
      rw [Array.size_replicate]
      exact Nat.succ_ne_self _)))
    exact ⟨out, e, hout, he, Prod.ext hstate (hrhs e he)⟩

end Session

end ConicSaddle
