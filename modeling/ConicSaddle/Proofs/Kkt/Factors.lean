import ConicSaddle.Proofs.Kkt.Calls

/-!
# Factors that are held

In any run of a session, a solver that accepts a handle holds the factors of the matrix that the
handle was issued for.

* `Solver.Holds`: a solver holds the factors of the matrix assembled for some inputs;
* `Solver.kept_of_issued`, `Solver.holds_of_factor`: it does after the factorization;
* `Session.Run.keeps`, `Session.Run.holds`: it does while it accepts the handle that was issued;
* `Session.Run.scaling_fits`: the scaling of such a handle has the sizes of the problem;
* `Session.exists_run_issued`: the run of a session with one solver and one factorization.
-/

namespace ConicSaddle

variable {α : Type} [Scalar α]

namespace Solver

variable {P : Problem α} {W : Scaling α} {H Df : Option (Matrix α)} {K : Grid P.order P.order α}

/-- The solver holds the factors of the matrix that was assembled for a scaling, a Hessian and a
Jacobian, and no column counted as zero. -/
structure Holds (S : Solver P) (W : Scaling α) (H Df : Option (Matrix α))
    (K : Grid P.order P.order α) : Prop where
  checked : P.checkInputs W H Df = .ok ()
  assembled : ∀ blocks, W.blocks = .ok blocks → Assembled P blocks H Df K
  factored : ∃ record t, Ldl.Sweeps 0 ⟨K, record, 0⟩ t ∧ t.info = 0 ∧ S.K = t.grid ∧
    S.record = t.record

/-- Holding the factors depends on the matrix and its pivots only. -/
theorem Holds.of_same {S T : Solver P} (h : S.Holds W H Df K) (same : SameFactors S T) :
    T.Holds W H Df K where
  checked := h.checked
  assembled := h.assembled
  factored := by
    obtain ⟨record, t, hsweep, hinfo, hK, hrecord⟩ := h.factored
    exact ⟨record, t, hsweep, hinfo, same.K_eq.trans hK, same.record_eq.trans hrecord⟩

/-- A factorization that answered with a handle leaves the factors, and the matrix itself if
solutions are to be refined. -/
theorem kept_of_issued {S : Solver P} (hwork : P.dims.maxOrder ≤ S.workspace.order)
    {out : Outcome (Handle α) (Solver P)} {handle : Handle α} (done : S.factor W H Df = .ok out)
    (issued : out.answer = .ok handle) :
    ∃ K, out.state.Holds W H Df K ∧ (P.settings.refine = true → out.state.copy = K) := by
  cases factorEnd_of_factor done with
  | refused => cases issued
  | unassembled => cases issued
  | zeroPivot => cases issued
  | @factored T found reply checked assembled factored answer inertia =>
    refine ⟨T.K, ⟨checked, fun blocks hblocks => ?_, T.record, _,
      Ldl.sweeps_of_factorGrid factored answer, rfl, rfl, rfl⟩, fun hrefine => ?_⟩
    · obtain ⟨T', hT', -, hassembled, -⟩ := exists_assemble
        (Problem.accepts_of_checkInputs checked) hblocks S.restarted hwork
      cases hT'.symm.trans assembled
      exact hassembled
    · have haccepts := Problem.accepts_of_checkInputs checked
      obtain ⟨blocks, hblocks⟩ := exists_blocks haccepts.scaling
      obtain ⟨T', hT', -, -, -, hcopy⟩ := exists_assemble haccepts hblocks S.restarted hwork
      cases hT'.symm.trans assembled
      exact hcopy hrefine

/-- A factorization that answered with a handle leaves the factors. -/
theorem holds_of_factor {S : Solver P} (hwork : P.dims.maxOrder ≤ S.workspace.order)
    {out : Outcome (Handle α) (Solver P)} {handle : Handle α} (done : S.factor W H Df = .ok out)
    (issued : out.answer = .ok handle) : ∃ K, out.state.Holds W H Df K :=
  (kept_of_issued hwork done issued).imp fun _ h => h.1

end Solver

namespace Session

/-- While a solver accepts a handle that it issued, it keeps the factors of the matrix that the
handle was issued for, and the matrix itself if solutions are to be refined. -/
theorem Run.keeps {s t : Session α} {P : Problem α} {U : Solver P} {id : ℕ}
    {later earlier : List (Moment α)} {W : Scaling α} {H Df : Option (Matrix α)}
    {handle : Handle α}
    (run : Run (later ++ ⟨.factor id W H Df (.ok handle), t⟩ :: earlier) s)
    (hU : s.solvers[id]? = some ⟨P, U⟩) (accepted : U.checkHandle handle = .ok ()) :
    handle.scaling = W ∧
      ∃ K, U.Holds W H Df K ∧ (P.settings.refine = true → U.copy = K) := by
  obtain ⟨t', hrun⟩ := run.of_append
  obtain ⟨Q, S, hS, hstatus, hhandle⟩ := hrun.issued
  obtain ⟨T, hT, hsince⟩ := run.since hS
  cases hT.symm.trans hU
  refine ⟨by rw [hhandle], ?_⟩
  have hown : handle.solver = U.id := by rw [hhandle, (run.standing hU).1]
  have hcontinued := ((hsince.accepted_iff hown (by rw [hhandle]) hstatus).mp accepted).1
  have hsame := hsince.same (Session.restarts_eq_zero.mpr hcontinued)
  -- back to the call that issued the handle
  obtain ⟨s₀, P₀, S₀, out, before, hS₀, hout, hanswer, ht⟩ := hrun.factored
  cases ht.symm.trans hS
  obtain ⟨K, hK, hcopy⟩ := Solver.kept_of_issued (before.workspace hS₀) hout hanswer.symm
  exact ⟨K, hK.of_same hsame, fun hrefine => hsame.copy_eq.trans (hcopy hrefine)⟩

/-- In particular it holds the factors. -/
theorem Run.holds {s t : Session α} {P : Problem α} {U : Solver P} {id : ℕ}
    {later earlier : List (Moment α)} {W : Scaling α} {H Df : Option (Matrix α)}
    {handle : Handle α}
    (run : Run (later ++ ⟨.factor id W H Df (.ok handle), t⟩ :: earlier) s)
    (hU : s.solvers[id]? = some ⟨P, U⟩) (accepted : U.checkHandle handle = .ok ()) :
    handle.scaling = W ∧ ∃ K, U.Holds W H Df K :=
  (run.keeps hU accepted).imp_right fun ⟨K, hK, _⟩ => ⟨K, hK⟩

/-- The scaling of a handle that was issued, and that a solver accepts, fits its problem. -/
theorem Run.scaling_fits {s : Session α} {history : List (Moment α)}
    {P : Problem α} {S : Solver P} {id : ℕ} {handle : Handle α} (run : Run history s)
    (hS : s.solvers[id]? = some ⟨P, S⟩)
    (issued : ∃ j W H Df t, ⟨.factor j W H Df (.ok handle), t⟩ ∈ history)
    (accepted : S.checkHandle handle = .ok ()) :
    handle.scaling.checkDims P.dims P.mnl = .ok () := by
  obtain ⟨j, W, H, Df, t, hmem⟩ := issued
  obtain ⟨later, earlier, rfl⟩ := List.append_of_mem hmem
  obtain rfl := run.issuer_eq hS accepted
  obtain ⟨hscaling, K, hK⟩ := run.holds hS accepted
  rw [hscaling]
  exact (Problem.accepts_of_checkInputs hK.checked).scaling

/-- A session with one solver, after a factorization that handed out a handle. -/
theorem exists_run_issued {G A : Matrix α} {dims : ConeDims} {mnl : ℕ} {settings : Settings α}
    {P : Problem α} {S : Solver P} {events : List Event}
    (made : Session.empty.create G dims A mnl settings = .ok ⟨.ok 0, ⟨#[⟨P, S⟩]⟩, events⟩)
    {W : Scaling α} {H Df : Option (Matrix α)} {out : Outcome (Handle α) (Solver P)}
    {handle : Handle α} (done : S.factor W H Df = .ok out) (issued : out.answer = .ok handle) :
    ∃ history, Run history ⟨#[⟨P, out.state⟩]⟩ ∧
      ⟨.factor 0 W H Df (.ok handle), ⟨#[⟨P, out.state⟩]⟩⟩ ∈ history ∧
      out.state.checkHandle handle = .ok () := by
  have hcall := factor_of_solver (s := ⟨#[⟨P, S⟩]⟩) (j := ⟨0, Nat.one_pos⟩) rfl done
  have run := (Run.start.next (.create made)).next (.factor _ hcall)
  rw [issued] at run
  exact ⟨_, run, List.mem_cons_self, Solver.accepts_issued done issued⟩

end Session

end ConicSaddle
