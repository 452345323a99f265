import ConicSaddle.Proofs.Exact.ZeroResidual
import ConicSaddle.Proofs.Kkt.LowerOnly
import ConicSaddle.Proofs.Kkt.Solution

/-!
# Solvers with other settings

Two solvers for the same data, of which one may refine its solutions and the other may not.  In any
arithmetic in which zero counts as zero they factor alike, because the settings only decide whether
the matrix is copied.  Without rounding they also solve alike: the copy is the matrix that the
factors are of, so refinement starts from a solution that leaves no residual.

* `Problem.SameData`, `Problem.withSettings`: problems that differ in their settings;
* `Solver.exists_factor_settings`: their solvers factor alike;
* `Solver.exists_solvePacked_exact`: the packed system is solved, refined or not;
* `Solver.exists_solve_settings`: their solvers solve alike;
* `Session.refinement_changes_nothing`: the statement for any two reachable states.
-/

namespace ConicSaddle

open Vec (entries)

variable {α : Type}

/-! ### Problems that differ in their settings -/

/-- The problems were made from the same constraints. -/
structure Problem.SameData (P Q : Problem α) : Prop where
  G_eq : Q.G = P.G
  dims_eq : Q.dims = P.dims
  A_eq : Q.A = P.A
  mnl_eq : Q.mnl = P.mnl

/-- The problem with other settings. -/
def Problem.withSettings (P : Problem α) (settings : Settings α) : Problem α :=
  { P with settings := settings }

/-- Problems made from the same constraints differ in their settings only. -/
theorem Problem.SameData.eq_withSettings {P Q : Problem α} (h : P.SameData Q) :
    Q = P.withSettings Q.settings := by
  obtain ⟨dims, mnl, G, A, settings, backend, unpacked, packed, hunpacked, hpacked⟩ := P
  obtain ⟨dims', mnl', G', A', settings', backend', unpacked', packed', hunpacked', hpacked'⟩ := Q
  obtain ⟨rfl, rfl, rfl, rfl⟩ := h
  cases backend
  cases backend'
  cases hunpacked.symm.trans hunpacked'
  cases hpacked.symm.trans hpacked'
  rfl

namespace Solver

variable [Scalar α] {P : Problem α} {settings : Settings α} {W : Scaling α}
  {H Df : Option (Matrix α)}

/-! ### Factoring -/

/-- The contents of an assembled matrix do not depend on the settings. -/
theorem Assembled.of_settings {blocks : List (ScalingBlock α)} {K : Grid P.order P.order α}
    (h : Assembled (P.withSettings settings) blocks H Df K) : Assembled P blocks H Df K :=
  ⟨h.hessian, h.equality, h.constraint, h.middle, h.corner⟩

/-- The matrices that two solvers assemble have the same lower triangle. -/
theorem Assembled.sameLower_settings [ZeroRule α] {blocks : List (ScalingBlock α)}
    {K K' : Grid P.order P.order α} (hW : W.checkDims P.dims P.mnl = .ok ())
    (hblocks : W.blocks = .ok blocks) (h : Assembled P blocks H Df K)
    (h' : Assembled (P.withSettings settings) blocks H Df K') : K.SameLower K' := by
  have hH : SameHessian H H := by
    cases H with
    | none => exact .none
    | some M => exact .some ⟨rfl, fun _ _ _ => rfl⟩
  exact h.sameLower (g := P.G.grid) (Scaling.fits_of_checkDims hW) hblocks (fun _ _ _ => rfl) hH
    h'.of_settings

/-- Two solvers refuse the same sizes, fail in the same column, or both hand out a handle. -/
theorem exists_factor_settings [ZeroRule α] [Ldl.PivotRules α] {S : Solver P}
    {T : Solver (P.withSettings settings)} (room : P.dims.maxOrder ≤ S.workspace.order)
    (room' : P.dims.maxOrder ≤ T.workspace.order) (W : Scaling α) (H Df : Option (Matrix α)) :
    ∃ out out', S.factor W H Df = .ok out ∧ T.factor W H Df = .ok out' ∧
      out'.answer = out.answer.map fun handle => ⟨T.id, T.generation + 1, handle.scaling⟩ := by
  cases hchecked : P.checkInputs W H Df with
  | error e =>
    exact ⟨_, _, factor_of_refused S hchecked, factor_of_refused T hchecked, rfl⟩
  | ok u =>
    have hW := (Problem.accepts_of_checkInputs hchecked).scaling
    obtain ⟨blocks, hblocks⟩ := exists_blocks hW
    obtain ⟨out, K, record, t, hfactor, hassembled, hsweep, -, -, -, -, hanswer⟩ :=
      exists_factor hchecked hblocks S room
    obtain ⟨out', K', record', t', hfactor', hassembled', hsweep', -, -, -, -, hanswer'⟩ :=
      exists_factor (P := P.withSettings settings) hchecked hblocks T room'
    have hsame := hsweep.sameLower (hassembled.sameLower_settings hW hblocks hassembled') hsweep'
    refine ⟨out, out', hfactor, hfactor', ?_⟩
    rw [hsame.info_eq] at hanswer'
    by_cases hinfo : t.info = 0
    · rw [if_pos hinfo] at hanswer hanswer'
      rw [hanswer, hanswer']
      rfl
    · rw [if_neg hinfo] at hanswer hanswer'
      rw [hanswer, hanswer']
      rfl

end Solver

namespace Solver

variable {P : Problem ℝ} {settings : Settings ℝ} {W : Scaling ℝ} {H Df : Option (Matrix ℝ)}

/-! ### Solving -/

/-- The packed system is solved, and the solution is accepted, whether it is refined or not. -/
theorem exists_solvePacked_exact {S : Solver P} {K : Grid P.order P.order ℝ}
    (holds : S.Holds W H Df K) (copied : P.settings.refine = true → S.copy = K) :
    ∃ T events, S.solvePacked = .ok (true, T, events) ∧
      K.symmMatrix.mulVec T.u.get = S.u.get := by
  obtain ⟨record, t, hsweep, hinfo, hK, hrecord⟩ := holds.factored
  have hsplits : S.record.Splits 0 := hrecord ▸ hsweep.splits
  by_cases hrefine : P.settings.refine = true
  · obtain ⟨verdict, T, events, u, hpacked, hrefines⟩ := exists_solvePacked_refined hrefine hsplits
    have hcopy : T.copy = K := hrefines.same.copy_eq.trans (copied hrefine)
    -- the copy, the factors and the pivots belong to one matrix
    have hfactored : T.refinement.Factored := by
      refine ⟨record, t, ?_, hinfo, hrefines.same.K_eq.trans hK,
        hrefines.same.record_eq.trans hrecord⟩
      show Ldl.Sweeps 0 ⟨T.copy, record, 0⟩ t
      rwa [hcopy]
    obtain ⟨rfl, hu⟩ := hrefines.ends.eq_of_factored hfactored hrefines.solved
    refine ⟨T, events, hpacked, ?_⟩
    have hsolves := hfactored.mulVec_eq hrefines.solved
    rw [← hu] at hsolves
    rw [← hcopy, ← hrefines.rhs_eq]
    exact hsolves
  · obtain ⟨u, hu⟩ := Ldl.exists_solves (A := S.K) hsplits S.u
    have hsolved := Ldl.solveGrid_of_solves hu
    refine ⟨{ S with u := u }, [], ?_, ?_⟩
    · rw [solvePacked, hsolved, Checked.ok_bind]
      simp only [if_neg hrefine, Exact.isFinite_array, Bool.or_true, Checked.pure_eq_ok]
    · rw [hK, hrecord] at hsolved
      exact hsweep.mulVec_eq hinfo hsolved

/-- Two solvers that hold the factors for the same inputs answer a right hand side with the same
solution. -/
theorem exists_solve_settings {S : Solver P} {T : Solver (P.withSettings settings)}
    {K K' : Grid P.order P.order ℝ} (holds : S.Holds W H Df K)
    (copied : P.settings.refine = true → S.copy = K) (holds' : T.Holds W H Df K')
    (copied' : settings.refine = true → T.copy = K')
    (room : P.dims.maxOrder ≤ S.workspace.order) (room' : P.dims.maxOrder ≤ T.workspace.order)
    {handle handle' : Handle ℝ} (scaling : handle.scaling = W) (scaling' : handle'.scaling = W)
    (accepted : S.checkHandle handle = .ok ()) (accepted' : T.checkHandle handle' = .ok ())
    {rhs : Rhs ℝ} (hrhs : P.checkRhs rhs = .ok ()) :
    ∃ U V found events events', S.solve handle rhs = .ok ⟨.ok (), (U, found), events⟩ ∧
      T.solve handle' rhs = .ok ⟨.ok (), (V, found), events'⟩ := by
  have hW := (Problem.accepts_of_checkInputs holds.checked).scaling
  obtain ⟨blocks, hblocks⟩ := exists_blocks hW
  -- the same packed right hand side
  obtain ⟨L, hL, hxL, hyL, hzL⟩ := exists_load hW hblocks hrhs S room
  obtain ⟨M, hM, hxM, hyM, hzM⟩ :=
    exists_load (P := P.withSettings settings) hW hblocks hrhs T room'
  have hload : M.u = L.u := by
    refine Eq.symm (ext_parts ?_ ?_ ?_)
    · intro i hi
      rw [hxL i hi]
      exact (hxM i hi).symm
    · intro i hi
      rw [hyL i hi]
      exact (hyM i hi).symm
    · exact hzL.unique (Scaling.fits_of_checkDims hW) hblocks hzM
  -- the same packed solution, because the system has one only
  obtain ⟨-, hsameL⟩ := load_keeps hL
  obtain ⟨-, hsameM⟩ := load_keeps hM
  obtain ⟨U, events, hU, hsolvedU⟩ := exists_solvePacked_exact (holds.of_same hsameL)
    fun hrefine => hsameL.copy_eq.trans (copied hrefine)
  obtain ⟨V, events', v, hV, hv, hsolvedV⟩ : ∃ V events' v, M.solvePacked = .ok (true, V, events') ∧
      V.u = v ∧ K'.symmMatrix.mulVec v.get = L.u.get := by
    obtain ⟨V, events', hV, hsolvedV⟩ := exists_solvePacked_exact (holds'.of_same hsameM)
      fun hrefine => hsameM.copy_eq.trans (copied' hrefine)
    exact ⟨V, events', V.u, hV, rfl, hsolvedV.trans (congrArg Vector.get hload)⟩
  have hlower : K.SameLower K' :=
    (holds.assembled blocks hblocks).sameLower_settings hW hblocks (holds'.assembled blocks hblocks)
  have hmatrix : K'.symmMatrix = K.symmMatrix := by
    funext i j
    exact (hlower.symm_eq i j).symm
  have hsolution : V.u = U.u := by
    obtain ⟨record, t, hsweep, hinfo, -, -⟩ := holds.factored
    rw [hmatrix, ← hsolvedU] at hsolvedV
    exact hv.trans (Vec.ext_get (congrFun (hsweep.mulVec_injective hinfo hsolvedV)))
  obtain ⟨found, hunloadU, hunloadV⟩ : ∃ found, U.unload rhs = .ok ⟨.ok (), found⟩ ∧
      V.unload rhs = .ok ⟨.ok (), found⟩ := by
    obtain ⟨found, hunload, -⟩ := exists_unload U hrhs
    refine ⟨found, hunload, ?_⟩
    have hV : V.unload rhs = ({ U with u := V.u } : Solver P).unload rhs := rfl
    rwa [hV, hsolution]
  rw [← scaling] at hL
  rw [← scaling'] at hM
  exact ⟨U, V, found, _, _, solve_of_solved accepted hrhs hL hU hunloadU,
    solve_of_solved accepted' hrhs hM hV hunloadV⟩

end Solver

/-! ### In two runs -/

namespace Session

/-- **Without rounding refinement changes nothing.**  Take any two states of sessions, and in each
of them a solver for the same data, one with and one without refinement, or with any other two
settings.  A factorization for the same inputs comes to the same end with both: the same sizes are
refused, the same column counts as zero, or both hand out a handle for the scaling.  While handles
that were issued for the same inputs are accepted, every right hand side whose parts have the right
lengths is answered with a solution by both, and the solutions are equal. -/
theorem refinement_changes_nothing {s s' : Session ℝ} {history history' : List (Moment ℝ)}
    (run : Run history s) (run' : Run history' s') {id id' : ℕ} (hid : id < s.solvers.size)
    (hid' : id' < s'.solvers.size)
    (same : s.solvers[id].problem.SameData s'.solvers[id'].problem) (W : Scaling ℝ)
    (H Df : Option (Matrix ℝ)) :
    let P := s.solvers[id].problem
    let S := s.solvers[id].solver
    let T := s'.solvers[id'].solver
    (∃ out out', s.factor ⟨id, hid⟩ W H Df = .ok out ∧ s'.factor ⟨id', hid'⟩ W H Df = .ok out' ∧
      out'.answer = out.answer.map fun handle => ⟨T.id, T.generation + 1, handle.scaling⟩) ∧
    ∀ handle handle' rhs,
      (∃ j t, ⟨.factor j W H Df (.ok handle), t⟩ ∈ history) →
      (∃ j t, ⟨.factor j W H Df (.ok handle'), t⟩ ∈ history') →
      S.checkHandle handle = .ok () → T.checkHandle handle' = .ok () → P.checkRhs rhs = .ok () →
      ∃ out out', s.solve ⟨id, hid⟩ handle rhs = .ok out ∧
        s'.solve ⟨id', hid'⟩ handle' rhs = .ok out' ∧
        out.answer = .ok () ∧ out'.answer = .ok () ∧ out'.state.2 = out.state.2 := by
  have hX : s.solvers[id]? = some s.solvers[id] := Array.getElem?_eq_getElem hid
  have hY : s'.solvers[id']? = some s'.solvers[id'] := Array.getElem?_eq_getElem hid'
  generalize s.solvers[id] = X at hX same
  generalize s'.solvers[id'] = Y at hY same
  obtain ⟨P, S⟩ := X
  obtain ⟨Q, T⟩ := Y
  obtain ⟨settings, rfl⟩ : ∃ settings, Q = P.withSettings settings := ⟨_, same.eq_withSettings⟩
  have room := run.workspace hX
  have room' := run'.workspace hY
  constructor
  · obtain ⟨out, out', hfactor, hfactor', hanswer⟩ :=
      Solver.exists_factor_settings room room' W H Df
    exact ⟨_, _, factor_of_solver (j := ⟨id, hid⟩) hX hfactor,
      factor_of_solver (j := ⟨id', hid'⟩) hY hfactor', hanswer⟩
  · rintro handle handle' rhs ⟨j, t, hmem⟩ ⟨j', t', hmem'⟩ accepted accepted' hrhs
    obtain ⟨later, earlier, rfl⟩ := List.append_of_mem hmem
    obtain ⟨later', earlier', rfl⟩ := List.append_of_mem hmem'
    obtain rfl := run.issuer_eq hX accepted
    obtain rfl := run'.issuer_eq hY accepted'
    obtain ⟨scaling, K, holds, copied⟩ := run.keeps hX accepted
    obtain ⟨scaling', K', holds', copied'⟩ := run'.keeps hY accepted'
    obtain ⟨U, V, found, events, events', hsolve, hsolve'⟩ :=
      Solver.exists_solve_settings holds copied holds' copied' room room' scaling scaling' accepted
        accepted' hrhs
    exact ⟨_, _, solve_of_solver (j := ⟨j, hid⟩) hX hsolve,
      solve_of_solver (j := ⟨j', hid'⟩) hY hsolve', rfl, rfl, rfl⟩

/-- The problem with one row, whose solutions are refined. -/
noncomputable def refinedRow : Problem ℝ :=
  oneRow.withSettings ⟨"auto", true, 0, 0, 3, Scalar.ofNat 5, true⟩

/-- The problem with one row has the same solutions, refined or not. -/
theorem refinement_changes_nothing_oneRow :
    ∃ (history history' : List (Moment ℝ)) (S : Solver oneRow) (T : Solver refinedRow)
      (handle handle' : Handle ℝ) (t t' : Session ℝ),
      Run history ⟨#[⟨oneRow, S⟩]⟩ ∧ Run history' ⟨#[⟨refinedRow, T⟩]⟩ ∧
      oneRow.SameData refinedRow ∧ oneRow.settings.refine = false ∧
      refinedRow.settings.refine = true ∧
      ⟨.factor 0 doubling unitHessian none (.ok handle), t⟩ ∈ history ∧
      ⟨.factor 0 doubling unitHessian none (.ok handle'), t'⟩ ∈ history' ∧
      S.checkHandle handle = .ok () ∧ T.checkHandle handle' = .ok () ∧
      ∀ a b : ℝ, ∃ out out',
        Session.solve ⟨#[⟨oneRow, S⟩]⟩ ⟨0, Nat.one_pos⟩ handle ⟨#[a], #[], #[b]⟩ = .ok out ∧
        Session.solve ⟨#[⟨refinedRow, T⟩]⟩ ⟨0, Nat.one_pos⟩ handle' ⟨#[a], #[], #[b]⟩ = .ok out' ∧
        out.answer = .ok () ∧ out'.answer = .ok () ∧ out'.state.2 = out.state.2 := by
  obtain ⟨S, hcreate⟩ : ∃ S : Solver oneRow,
      Session.empty.create oneRow.G oneRow.dims oneRow.A 0 oneRow.settings =
        .ok ⟨.ok 0, ⟨#[⟨oneRow, S⟩]⟩, [Solver.created oneRow]⟩ := ⟨_, rfl⟩
  obtain ⟨T, hcreate'⟩ : ∃ T : Solver refinedRow,
      Session.empty.create refinedRow.G refinedRow.dims refinedRow.A 0 refinedRow.settings =
        .ok ⟨.ok 0, ⟨#[⟨refinedRow, T⟩]⟩, [Solver.created refinedRow]⟩ := ⟨_, rfl⟩
  have hS : (#[⟨oneRow, S⟩] : Array (AnySolver ℝ))[0]? = some ⟨oneRow, S⟩ := rfl
  have hT : (#[⟨refinedRow, T⟩] : Array (AnySolver ℝ))[0]? = some ⟨refinedRow, T⟩ := rfl
  have room := (Run.start.next (.create hcreate)).workspace hS
  have room' := (Run.start.next (.create hcreate')).workspace hT
  -- the factorization with one solver succeeds, so the other one does as well
  obtain ⟨handle, S', events, hfactor, -⟩ := exists_factor_oneRow room
  obtain ⟨out, out', hout, hfactor', hanswer⟩ :=
    Solver.exists_factor_settings room room' doubling unitHessian none
  cases hout.symm.trans hfactor
  obtain ⟨history, run, issued, accepted⟩ := exists_run_issued hcreate hfactor rfl
  obtain ⟨history', run', issued', accepted'⟩ := exists_run_issued hcreate' hfactor' hanswer
  have same : oneRow.SameData refinedRow := ⟨rfl, rfl, rfl, rfl⟩
  refine ⟨history, history', S', out'.state, _, _, _, _, run, run', same, rfl, rfl, issued, issued',
    accepted, accepted', fun a b => ?_⟩
  obtain ⟨-, hsolve⟩ := refinement_changes_nothing run run' Nat.one_pos Nat.one_pos same doubling
    unitHessian none
  exact hsolve _ _ _ ⟨0, _, issued⟩ ⟨0, _, issued'⟩ accepted accepted' rfl

end Session

end ConicSaddle
