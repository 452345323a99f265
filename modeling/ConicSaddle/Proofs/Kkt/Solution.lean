import ConicSaddle.Proofs.Kkt.Factors
import ConicSaddle.Proofs.Kkt.System

/-!
# Solutions in exact arithmetic

What a solve without refinement answers over the reals, in any run of a session.

* `Solver.answers_of_solve`: what a solver answers that holds the factors of the assembled matrix;
* `Session.solve_answers`: the same for a handle and a solve in a run.
-/

namespace ConicSaddle

open Vec (entries)

namespace Solver

/-! ### What a solve answers -/

/-- The steps of a solve that succeeds without refinement. -/
theorem steps_of_solve {α : Type} [Scalar α] {P : Problem α} {S T : Solver P}
    {handle : Handle α} {rhs found : Rhs α} {events : List Event}
    (unrefined : P.settings.refine = false)
    (done : S.solve handle rhs = .ok ⟨.ok (), (T, found), events⟩) :
    P.checkRhs rhs = .ok () ∧ ∃ (L : Solver P) (u : Vector α P.order),
      S.load handle.scaling rhs = .ok ⟨.ok (), L⟩ ∧ Ldl.solveGrid L.K L.record L.u = .ok u ∧
      unload { L with u := u } rhs = .ok ⟨.ok (), found⟩ := by
  generalize hout : (⟨.ok (), (T, found), events⟩ : Outcome Unit (Solver P × Rhs α)) = out at done
  cases solveEnd_of_solve done with
  | rejected => cases hout
  | wrongLength => cases hout
  | unscaled => cases hout
  | nonFinite => cases hout
  | @unloaded L U solveEvents reply _ hrhs hload hsolve hunload =>
  obtain ⟨answer, unloaded⟩ := reply
  cases answer with
  | error e => cases hout
  | ok u =>
  cases hout
  simp only [solvePacked, unrefined, Bool.false_eq_true, if_false, Checked.bind_eq_ok] at hsolve
  obtain ⟨u, hu, hsolve⟩ := hsolve
  simp only [Checked.pure_eq_ok, Except.ok.injEq, Prod.mk.injEq] at hsolve
  obtain ⟨-, rfl, -⟩ := hsolve
  exact ⟨hrhs, L, u, hload, hu, hunload⟩

/-- A solve without refinement, with the scaling that the factors belong to. -/
theorem answers_of_solve {P : Problem ℝ} {S T : Solver P} {W : Scaling ℝ}
    {H Df : Option (Matrix ℝ)} {K : Grid P.order P.order ℝ} (holds : S.Holds W H Df K)
    {handle : Handle ℝ} (scaling : handle.scaling = W) (genuine : W.Genuine)
    (unrefined : P.settings.refine = false) (hwork : P.dims.maxOrder ≤ S.workspace.order)
    {rhs found : Rhs ℝ} {events : List Event}
    (done : S.solve handle rhs = .ok ⟨.ok (), (T, found), events⟩)
    (work : Workspace ℝ) (room : P.dims.maxOrder ≤ work.order) :
    (found.x.size = P.vars ∧ found.y.size = P.eqs ∧ found.z.size = P.rows) ∧
    ∃ z work₁ w work₂ s work₃,
      W.scale (⟨found.z, rfl⟩ : Vector ℝ found.z.size) P.dims P.mnl ⟨false, true⟩ work =
        .ok ⟨.ok (), (z, work₁)⟩ ∧
      W.scale z P.dims P.mnl ⟨false, false⟩ work₁ = .ok ⟨.ok (), (w, work₂)⟩ ∧
      W.scale w P.dims P.mnl ⟨true, false⟩ work₂ = .ok ⟨.ok (), (s, work₃)⟩ ∧
      Answers P H Df rhs (entries found.x) (entries found.y) (entries z.toArray)
        (entries s.toArray) := by
  obtain ⟨hrhs, L, u, hload, hu, hunload⟩ := steps_of_solve unrefined done
  subst scaling
  have hW := (Problem.accepts_of_checkInputs holds.checked).scaling
  have hfits := Scaling.fits_of_checkDims hW
  obtain ⟨blocks, hblocks⟩ := exists_blocks hW
  -- the right hand side that was loaded, and the solution of its packed system
  obtain ⟨L', hload', hbx, hby, hbz⟩ := exists_load hW hblocks hrhs S hwork
  cases hload'.symm.trans hload
  obtain ⟨-, hsame⟩ := load_keeps hload
  obtain ⟨record, t, hsweep, hinfo, hK, hrecord⟩ := (holds.of_same hsame).factored
  rw [hK, hrecord] at hu
  have hsolved := solved_of_sweeps hsweep hinfo hu
  -- what was unloaded
  obtain ⟨found', hunload', ⟨hx, hxentries⟩, ⟨hy, hyentries⟩, ⟨hz, hzentries⟩⟩ :=
    exists_unload { L with u := u } hrhs
  cases hunload'.symm.trans hunload
  refine ⟨⟨hx, hy, hz⟩, ?_⟩
  have hfound : found.z.size = P.mnl + P.unpacked := hz
  have hrows := P.rows_fit
  have hlimit : found.z.size < Word.limit := by omega
  obtain ⟨z, work₁, hz₁, hroom₁, hacts₁⟩ := Scaling.exists_scale hW hblocks P.numelUnpacked_eq
    hfound hlimit ⟨false, true⟩ ⟨found.z, rfl⟩ work room
  obtain ⟨w, work₂, hw₂, hroom₂, hacts₂⟩ := Scaling.exists_scale hW hblocks P.numelUnpacked_eq
    hfound hlimit ⟨false, false⟩ z work₁ (by omega)
  obtain ⟨s, work₃, hs₃, -, hacts₃⟩ := Scaling.exists_scale hW hblocks P.numelUnpacked_eq
    hfound hlimit ⟨true, false⟩ w work₂ (by omega)
  refine ⟨z, work₁, w, work₂, s, work₃, hz₁, hw₂, hs₃, ?_⟩
  have hanswers := hsolved.answers hfits hblocks genuine (holds.assembled blocks hblocks) hbx hby
    hbz hzentries hacts₁ hacts₂ hacts₃
  exact hanswers.congr hxentries fun e he => hyentries e he

/-- Without refinement every right hand side of the right size is answered. -/
theorem exists_solve {P : Problem ℝ} {S : Solver P} {W : Scaling ℝ} {H Df : Option (Matrix ℝ)}
    {K : Grid P.order P.order ℝ} (holds : S.Holds W H Df K) {handle : Handle ℝ}
    (scaling : handle.scaling = W) (unrefined : P.settings.refine = false)
    (hwork : P.dims.maxOrder ≤ S.workspace.order) (accepted : S.checkHandle handle = .ok ())
    {rhs : Rhs ℝ} (hrhs : P.checkRhs rhs = .ok ()) :
    ∃ T found events, S.solve handle rhs = .ok ⟨.ok (), (T, found), events⟩ := by
  subst scaling
  have hW := (Problem.accepts_of_checkInputs holds.checked).scaling
  obtain ⟨blocks, hblocks⟩ := exists_blocks hW
  obtain ⟨L, hload, -⟩ := exists_load hW hblocks hrhs S hwork
  obtain ⟨-, hsame⟩ := load_keeps hload
  obtain ⟨record, t, hsweep, hinfo, hK, hrecord⟩ := (holds.of_same hsame).factored
  obtain ⟨u, hu⟩ := Ldl.exists_solves (A := t.grid) hsweep.splits L.u
  have hsolved := Ldl.solveGrid_of_solves hu
  rw [← hK, ← hrecord] at hsolved
  obtain ⟨found, hunload, -⟩ := exists_unload { L with u := u } hrhs
  refine ⟨{ L with u := u }, found, [.solving S.generation], ?_⟩
  simp only [solve, accepted, hrhs, hload, Checked.ok_bind, solvePacked, unrefined,
    Bool.false_eq_true, if_false, hsolved, Exact.isFinite_array, Bool.or_true, Checked.pure_eq_ok,
    if_true, hunload]
  rfl

end Solver

/-! ### In a run -/

namespace Session

variable {s t : Session ℝ}

/-- **Solutions solve the system of the problem.**  Let a factorization in a run have answered with
a handle for a genuine scaling `W`, and let a solve with the handle succeed without refinement.
Then the three parts `x`, `y` and `W z` of the solution belong to a solution of the whole system,
where `z` is computed by the inverse scaling and `Wᵀ W z` by the scaling and its transpose. -/
theorem solve_answers {later earlier : List (Moment ℝ)} {id : ℕ} {W : Scaling ℝ}
    {H Df : Option (Matrix ℝ)} {handle : Handle ℝ}
    (run : Run (later ++ ⟨.factor id W H Df (.ok handle), t⟩ :: earlier) s)
    {j : ℕ} (hj : j < s.solvers.size) {s' : Session ℝ} {rhs found : Rhs ℝ} {events : List Event}
    (solved : s.solve ⟨j, hj⟩ handle rhs = .ok ⟨.ok (), (s', found), events⟩)
    (unrefined : s.solvers[j].problem.settings.refine = false) (genuine : W.Genuine)
    (work : Workspace ℝ) (room : s.solvers[j].problem.dims.maxOrder ≤ work.order) :
    let P := s.solvers[j].problem
    (found.x.size = P.vars ∧ found.y.size = P.eqs ∧ found.z.size = P.rows) ∧
    ∃ z work₁ w work₂ s work₃,
      W.scale (⟨found.z, rfl⟩ : Vector ℝ found.z.size) P.dims P.mnl ⟨false, true⟩ work =
        .ok ⟨.ok (), (z, work₁)⟩ ∧
      W.scale z P.dims P.mnl ⟨false, false⟩ work₁ = .ok ⟨.ok (), (w, work₂)⟩ ∧
      W.scale w P.dims P.mnl ⟨true, false⟩ work₂ = .ok ⟨.ok (), (s, work₃)⟩ ∧
      Solver.Answers P H Df rhs (entries found.x) (entries found.y) (entries z.toArray)
        (entries s.toArray) := by
  have hX : s.solvers[j]? = some s.solvers[j] := Array.getElem?_eq_getElem hj
  generalize s.solvers[j] = X at hX unrefined room
  obtain ⟨P, U⟩ := X
  obtain ⟨inner, hinner, hout⟩ := solve_eq_ok hX solved
  obtain ⟨answer, ⟨T, found'⟩, events'⟩ := inner
  cases hout
  -- another solver would have refused the handle
  have hid : id = j := by
    by_contra hne
    obtain ⟨t', hrun⟩ := run.of_append
    obtain ⟨Q, S, -, -, hhandle⟩ := hrun.issued
    have hforeign : handle.solver ≠ U.id := by
      rw [hhandle, (run.standing hX).1]
      exact hne
    cases (Solver.solve_of_rejected (Solver.checkHandle_foreign hforeign) rhs).symm.trans hinner
  subst hid
  have accepted : U.checkHandle handle = .ok () := by
    cases hcheck : U.checkHandle handle with
    | ok u => rfl
    | error rejection =>
      obtain ⟨e, events⟩ := rejection
      cases (Solver.solve_of_rejected hcheck rhs).symm.trans hinner
  obtain ⟨hscaling, K, hK⟩ := run.holds hX accepted
  exact Solver.answers_of_solve hK hscaling genuine unrefined (run.workspace hX) hinner work room

end Session

/-! ### One variable and one row -/

/-- A matrix of order two with a positive and a negative diagonal entry has no column of zeros on
the way. -/
theorem Ldl.Sweeps.info_of_order_two {K : Grid 2 2 ℝ} {record : Ldl.Record 2}
    {t : Ldl.Progress 2 ℝ} (h : Ldl.Sweeps 0 ⟨K, record, 0⟩ t) (hfirst : K.get 0 0 = 1)
    (hsecond : K.get 1 1 = -1) : t.info = 0 := by
  have hsquare : 0 ≤ K.get 1 0 * K.get 1 0 := mul_self_nonneg _
  generalize hk : (0 : ℕ) = k at h
  cases h with
  | done => omega
  | skip k choice =>
    obtain rfl : k = 0 := Fin.ext hk.symm
    have hzero := Ldl.column_eq_zero choice (le_refl 0)
    rw [hfirst] at hzero
    exact absurd hzero one_ne_zero
  | pair k l p next choice rest =>
    rw [rest.eq_of_le (by omega)]
    rfl
  | single k p choice rest =>
    obtain rfl : k = 0 := Fin.ext hk.symm
    generalize hl : (0 : Fin 2).val + 1 = l at rest
    cases rest with
    | done => omega
    | single l q choice rest =>
      rw [rest.eq_of_le (by omega)]
      rfl
    | pair l m q next =>
      have hm := m.isLt
      omega
    | skip l choice' =>
      obtain rfl : l = 1 := Fin.ext hl.symm
      -- what is left of the second column is the Schur complement, whichever row came first
      have hzero := Ldl.column_eq_zero choice' (le_refl 1)
      have hp : p = 0 ∨ p = 1 := by omega
      rcases hp with rfl | rfl
      · simp [Ldl.Progress.single, Ldl.eliminateSingle, Ldl.interchange, Grid.get_ofFn, Grid.symm,
          Ldl.exchange, hfirst, hsecond] at hzero
        split at hzero
        · linarith
        · linarith
      · simp [Ldl.Progress.single, Ldl.eliminateSingle, Ldl.interchange, Grid.get_ofFn, Grid.symm,
          Ldl.exchange, hfirst, hsecond] at hzero
        split at hzero
        · linarith
        · linarith

/-- The problem with one variable, one row of the orthant, and no equality constraints. -/
noncomputable def oneRow : Problem ℝ where
  dims := { ConeDims.empty with l := 1 }
  mnl := 0
  G := ⟨1, 1, .replicate 1 1 (Scalar.ofNat 2)⟩
  A := ⟨0, 1, .replicate 0 1 0⟩
  settings := ⟨"auto", false, 0, 0, 0, 0, true⟩
  backend := .native
  unpacked := 1
  packed := 1
  numelUnpacked_eq := rfl
  numelPacked_eq := rfl
  G_rows := rfl
  A_cols := rfl
  rows_fit := by decide
  order_fits := by decide

/-- The scaling that doubles. -/
noncomputable def doubling : Scaling ℝ :=
  ⟨#[], #[], #[Scalar.ofNat 2], #[Scalar.recip (Scalar.ofNat 2)], [], [], [], []⟩

theorem doubling_genuine : doubling.Genuine where
  nonlinear := nofun
  orthant := by
    intro i hi
    obtain rfl : i = 0 := Nat.lt_one_iff.mp hi
    show (2 : ℝ) * (1 / 2) = 1
    norm_num
  secondOrder := nofun
  beta_ne_zero := nofun
  semidefinite := nofun

/-- The Hessian of order one. -/
noncomputable def unitHessian : Option (Matrix ℝ) := some ⟨1, 1, ⟨#v[1]⟩⟩

/-- The problem with one row is factored without an error. -/
theorem exists_factor_oneRow {S : Solver oneRow}
    (hwork : oneRow.dims.maxOrder ≤ S.workspace.order) :
    ∃ handle T events, S.factor doubling unitHessian none = .ok ⟨.ok handle, T, events⟩ ∧
      handle = ⟨S.id, S.generation + 1, doubling⟩ := by
  have hchecked : oneRow.checkInputs doubling unitHessian none = .ok () := rfl
  obtain ⟨blocks, hblocks⟩ :=
    Solver.exists_blocks (Problem.accepts_of_checkInputs hchecked).scaling
  obtain ⟨⟨answer, T, events⟩, K, record, t, hfactor, hassembled, hsweep, -, -, -, -, hanswer⟩ :=
    Solver.exists_factor hchecked hblocks S hwork
  have hfirst : K.get ⟨0, Nat.zero_lt_two⟩ ⟨0, Nat.zero_lt_two⟩ = 1 :=
    hassembled.hessian _ _ Nat.one_pos Nat.one_pos
  have hsecond : K.get ⟨1, Nat.one_lt_two⟩ ⟨1, Nat.one_lt_two⟩ = -1 :=
    hassembled.corner _ _ (le_refl 1) (le_refl 1)
  have hinfo : t.info = 0 := Ldl.Sweeps.info_of_order_two hsweep hfirst hsecond
  rw [if_pos hinfo] at hanswer
  obtain rfl : answer = _ := hanswer
  exact ⟨_, T, events, hfactor, rfl⟩

/-- A session with one solver, one factorization and one solve. -/
theorem solve_answers_oneRow :
    ∃ (s t s' : Session ℝ) (id : ℕ) (hid : id < s.solvers.size) (handle : Handle ℝ)
      (earlier : List (Session.Moment ℝ)) (found : Rhs ℝ) (events : List Event)
      (work : Workspace ℝ),
      Session.Run ([] ++ ⟨.factor id doubling unitHessian none (.ok handle), t⟩ :: earlier) s ∧
      s.solve ⟨id, hid⟩ handle ⟨#[3], #[], #[5]⟩ = .ok ⟨.ok (), (s', found), events⟩ ∧
      s.solvers[id].problem.settings.refine = false ∧
      s.solvers[id].problem.dims.maxOrder ≤ work.order ∧
      ∃ z u, Solver.Answers s.solvers[id].problem unitHessian none ⟨#[3], #[], #[5]⟩
        (entries found.x) (entries found.y) z u := by
  obtain ⟨S, hcreate⟩ : ∃ S : Solver oneRow,
      Session.empty.create oneRow.G oneRow.dims oneRow.A 0 oneRow.settings =
        .ok ⟨.ok 0, ⟨#[⟨oneRow, S⟩]⟩, [Solver.created oneRow]⟩ := ⟨_, rfl⟩
  have run₁ := Session.Run.start.next (.create hcreate)
  have hS : (#[⟨oneRow, S⟩] : Array (AnySolver ℝ))[0]? = some ⟨oneRow, S⟩ := rfl
  have hwork := run₁.workspace hS
  obtain ⟨handle, T, events₁, hfactor, hhandle⟩ := exists_factor_oneRow hwork
  have hcall : (⟨#[⟨oneRow, S⟩]⟩ : Session ℝ).factor ⟨0, Nat.one_pos⟩ doubling unitHessian none =
      .ok ⟨.ok handle, ⟨#[⟨oneRow, T⟩]⟩, events₁⟩ := by
    show S.factor doubling unitHessian none >>= _ = _
    rw [hfactor]
    rfl
  have run₂ := run₁.next (.factor _ hcall)
  obtain ⟨K, holds⟩ := Solver.holds_of_factor hwork hfactor rfl
  have accepted : T.checkHandle handle = .ok () := Solver.accepts_issued hfactor rfl
  have hT : (#[⟨oneRow, T⟩] : Array (AnySolver ℝ))[0]? = some ⟨oneRow, T⟩ := rfl
  have hwork₂ := run₂.workspace hT
  obtain ⟨U, found, events₂, hsolve⟩ := Solver.exists_solve holds (by rw [hhandle]) rfl hwork₂
    accepted (show oneRow.checkRhs ⟨#[3], #[], #[5]⟩ = .ok () from rfl)
  have hanswer : (⟨#[⟨oneRow, T⟩]⟩ : Session ℝ).solve ⟨0, Nat.one_pos⟩ handle ⟨#[3], #[], #[5]⟩ =
      .ok ⟨.ok (), (⟨#[⟨oneRow, U⟩]⟩, found), events₂⟩ := by
    show T.solve handle ⟨#[3], #[], #[5]⟩ >>= _ = _
    rw [hsolve]
    rfl
  rw [← List.nil_append (_ :: _)] at run₂
  obtain ⟨-, z, -, -, -, u, -, -, -, -, hanswers⟩ := Session.solve_answers run₂ Nat.one_pos
    hanswer rfl doubling_genuine T.workspace hwork₂
  exact ⟨⟨#[⟨oneRow, T⟩]⟩, _, _, 0, Nat.one_pos, handle, _, found, events₂, T.workspace, run₂,
    hanswer, rfl, hwork₂, _, _, hanswers⟩

end ConicSaddle
