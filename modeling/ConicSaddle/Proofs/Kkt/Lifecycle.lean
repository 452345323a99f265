import ConicSaddle.Kkt.Factor
import ConicSaddle.Kkt.Solve
import ConicSaddle.Proofs.Checked

/-!
# The life of a factorization

What a call of a solver does to the fields that decide whether a handle can be used: the number of
the solver, the generation and the status.  The numbers in the matrices do not matter here.

* `assemble_invariant`: what the steps of an assembly preserve, it preserves;
* `factor_of_refused`, `factor_of_zeroPivot`, `factor_of_factored`: a factorization, by the step
  that it ends with;
* `FactorEnd`, `factorEnd_of_factor`: what is known of a factorization that was made, and
  `factor_of_checked`: what it did behind the dimension checks;
* `solve_of_rejected`, `solve_of_wrongLength`, `solve_of_unscaled`, `solve_of_nonFinite`,
  `solve_of_solved`: a solve, by the step that it ends with;
* `SolveEnd`, `solveEnd_of_solve`: what is known of a solve that was made;
* `SameFactors`, `solve_keeps`: a solve leaves the matrix, its pivots and its copy alone.
-/

namespace ConicSaddle.Solver

variable {α : Type} [Scalar α] {P : Problem α} {W : Scaling α} {H Df : Option (Matrix α)}

/-- A new solver has its number and no generation yet. -/
theorem new_eq_ok {S : Solver P} {id : Nat} (done : Solver.new P id = .ok S) :
    S.id = id ∧ S.generation = 0 ∧ Workspace.new P.dims = .ok S.workspace := by
  simp only [new, Checked.bind_eq_ok] at done
  obtain ⟨-, -, -, -, workspace, hworkspace, done⟩ := done
  cases done
  exact ⟨rfl, rfl, hworkspace⟩

/-! ### Factoring -/

/-- The matrix before its columns are scaled: the Hessian above the equality constraints. -/
def openGrid (P : Problem α) (H : Option (Matrix α)) : Checked (Grid P.order P.order α) := do
  let K ← match H with
    | some H => (Grid.replicate P.order P.order 0).setBlock 0 0 H.grid
    | none => pure (Grid.replicate P.order P.order 0)
  K.setBlock P.vars 0 P.A.grid

/-- The last block of a matrix whose columns are scaled and packed. -/
def closeGrid (K : Grid P.order P.order α) : Checked (Grid P.order P.order α) := do
  let K ← K.fillBlock (P.vars + P.eqs) (P.vars + P.eqs) P.coneRows P.coneRows 0
  K.setBlockDiagonal (P.vars + P.eqs) P.coneRows (-1)

/-- A matrix is opened, its columns are assembled, and it is closed and copied. -/
theorem assemble_eq (S : Solver P) (W : Scaling α) (H Df : Option (Matrix α)) :
    S.assemble W H Df = (do
      let K ← openGrid P H
      let columns ← assembleColumns W Df (List.finRange P.vars) { S with K := K }
      match columns.answer with
      | .error e => pure ⟨.error e, columns.state⟩
      | .ok () =>
        let K ← closeGrid columns.state.K
        pure ⟨.ok (), { columns.state with
          K := K, copy := if P.settings.refine then K else columns.state.copy }⟩) := by
  unfold assemble openGrid
  cases H
  case' none =>
    simp only [pure_bind]
    refine bind_congr fun _ => bind_congr fun columns => ?_
  case' some H =>
    simp only [bind_assoc]
    refine bind_congr fun _ => bind_congr fun _ => bind_congr fun columns => ?_
  all_goals
    -- the two differ in how the closing steps are nested
    obtain ⟨answer, T⟩ := columns
    cases answer with
    | error e => rfl
    | ok u => exact (bind_assoc _ _ _).symm

section

variable {I : Solver P → Prop}
  (scaled : ∀ {S : Solver P} {g : Vector α P.rows}
    {reply : Reply DimensionError Unit (Vector α P.rows × Workspace α)},
    I S → W.scale g P.dims P.mnl ⟨true, true⟩ S.workspace = .ok reply →
      I { S with g := reply.state.1, workspace := reply.state.2 })
  (written : ∀ {S : Solver P} (K copy : Grid P.order P.order α), I S →
    I { S with K := K, copy := copy })
include scaled written

/-- What scaling a column and writing a matrix preserve, assembling the columns preserves. -/
theorem assembleColumns_invariant {ks : List (Fin P.vars)} {S : Solver P} (start : I S)
    {reply : Reply DimensionError Unit (Solver P)} (done : assembleColumns W Df ks S = .ok reply) :
    I reply.state := by
  induction ks generalizing S with
  | nil =>
    cases done
    exact start
  | cons k ks ih =>
    simp only [assembleColumns, Checked.bind_eq_ok] at done
    obtain ⟨g, -, column, hcolumn, done⟩ := done
    have hscaled := scaled start hcolumn
    cases hanswer : column.answer with
    | error e =>
      rw [hanswer] at done
      cases done
      exact hscaled
    | ok u =>
      simp only [hanswer, Checked.bind_eq_ok] at done
      obtain ⟨packed, -, done⟩ := done
      have hwritten := written (S.K.setCol (P.column k) packed.state) S.copy hscaled
      cases hpacked : packed.answer with
      | error e =>
        rw [hpacked] at done
        cases done
        exact hwritten
      | ok u =>
        rw [hpacked] at done
        exact ih hwritten done

/-- So does assembling the matrix. -/
theorem assemble_invariant {S : Solver P} (start : I S)
    {reply : Reply DimensionError Unit (Solver P)} (done : S.assemble W H Df = .ok reply) :
    I reply.state := by
  simp only [assemble_eq, Checked.bind_eq_ok] at done
  obtain ⟨K, -, columns, hcolumns, done⟩ := done
  have hassembled := assembleColumns_invariant scaled written (written K S.copy start) hcolumns
  cases hanswer : columns.answer with
  | error e =>
    rw [hanswer] at done
    cases done
    exact hassembled
  | ok u =>
    simp only [hanswer, Checked.bind_eq_ok] at done
    obtain ⟨K', -, done⟩ := done
    cases done
    exact written _ _ hassembled

end

/-- Number, generation and status are those of the other state. -/
structure SameStanding (S T : Solver P) : Prop where
  id_eq : T.id = S.id
  generation_eq : T.generation = S.generation
  status_eq : T.status = S.status

theorem assemble_standing {S : Solver P} {reply : Reply DimensionError Unit (Solver P)}
    (done : S.assemble W H Df = .ok reply) : SameStanding S reply.state :=
  assemble_invariant (I := SameStanding S) (fun h _ => ⟨h.id_eq, h.generation_eq, h.status_eq⟩)
    (fun _ _ h => ⟨h.id_eq, h.generation_eq, h.status_eq⟩) ⟨rfl, rfl, rfl⟩ done

/-- The solver as a factorization finds it behind the dimension checks. -/
def restarted (S : Solver P) : Solver P :=
  { S with generation := S.generation + 1, status := .failed }

/-- Operands of the wrong size leave the solver as it is. -/
theorem factor_of_refused (S : Solver P) {e : DimensionError}
    (refused : P.checkInputs W H Df = .error e) :
    S.factor W H Df = .ok ⟨.error (.dimension e), S, []⟩ := by
  simp only [factor, refused]
  rfl

/-- The assembled matrix has a column that counts as zero. -/
theorem factor_of_zeroPivot {S T : Solver P} (checked : P.checkInputs W H Df = .ok ())
    (assembled : S.restarted.assemble W H Df = .ok ⟨.ok (), T⟩)
    {reply : Reply FactorizationError Unit (Grid P.order P.order α × Ldl.Record P.order)}
    (factored : Ldl.factorGrid T.K T.record = .ok reply) {e : FactorizationError}
    (answer : reply.answer = .error e) :
    S.factor W H Df = .ok ⟨.error (.ofFactorization e),
      { T with K := reply.state.1, record := reply.state.2 },
      [.factoring (S.generation + 1) P.order, .factorizationFailed e]⟩ := by
  unfold restarted at assembled
  simp only [factor, checked, assembled, factored, answer, Checked.ok_bind, Checked.pure_eq_ok]

/-- The assembled matrix is factored, and a handle is handed out. -/
theorem factor_of_factored {S T : Solver P} (checked : P.checkInputs W H Df = .ok ())
    (assembled : S.restarted.assemble W H Df = .ok ⟨.ok (), T⟩)
    {reply : Reply FactorizationError Unit (Grid P.order P.order α × Ldl.Record P.order)}
    (factored : Ldl.factorGrid T.K T.record = .ok reply) (answer : reply.answer = .ok ())
    {found : Inertia} (inertia : Ldl.inertia (.ofGrid reply.state.1) reply.state.2 = .ok found) :
    S.factor W H Df = .ok ⟨.ok ⟨T.id, T.generation, W⟩,
      { T with K := reply.state.1, record := reply.state.2, status := .factored },
      [.factoring (S.generation + 1) P.order, .factored found]⟩ := by
  unfold restarted at assembled
  simp only [factor, checked, assembled, factored, answer, inertia, Checked.ok_bind,
    Checked.pure_eq_ok]

/-- How a factorization ends: with operands of the wrong size, with columns that cannot be scaled
and packed, with a column that counts as zero, or with a handle. -/
inductive FactorEnd (S : Solver P) (W : Scaling α) (H Df : Option (Matrix α)) :
    Outcome (Handle α) (Solver P) → Prop
  | refused {e : DimensionError} (refused : P.checkInputs W H Df = .error e) :
      FactorEnd S W H Df ⟨.error (.dimension e), S, []⟩
  | unassembled {T : Solver P} {e : DimensionError} (checked : P.checkInputs W H Df = .ok ())
      (assembled : S.restarted.assemble W H Df = .ok ⟨.error e, T⟩) :
      FactorEnd S W H Df ⟨.error (.dimension e), T, [.factoring (S.generation + 1) P.order]⟩
  | zeroPivot {T : Solver P} {e : FactorizationError}
      {reply : Reply FactorizationError Unit (Grid P.order P.order α × Ldl.Record P.order)}
      (checked : P.checkInputs W H Df = .ok ())
      (assembled : S.restarted.assemble W H Df = .ok ⟨.ok (), T⟩)
      (factored : Ldl.factorGrid T.K T.record = .ok reply) (answer : reply.answer = .error e) :
      FactorEnd S W H Df ⟨.error (.ofFactorization e),
        { T with K := reply.state.1, record := reply.state.2 },
        [.factoring (S.generation + 1) P.order, .factorizationFailed e]⟩
  | factored {T : Solver P} {found : Inertia}
      {reply : Reply FactorizationError Unit (Grid P.order P.order α × Ldl.Record P.order)}
      (checked : P.checkInputs W H Df = .ok ())
      (assembled : S.restarted.assemble W H Df = .ok ⟨.ok (), T⟩)
      (factored : Ldl.factorGrid T.K T.record = .ok reply) (answer : reply.answer = .ok ())
      (inertia : Ldl.inertia (.ofGrid reply.state.1) reply.state.2 = .ok found) :
      FactorEnd S W H Df ⟨.ok ⟨T.id, T.generation, W⟩,
        { T with K := reply.state.1, record := reply.state.2, status := .factored },
        [.factoring (S.generation + 1) P.order, .factored found]⟩

theorem factorEnd_of_factor {S : Solver P} {out : Outcome (Handle α) (Solver P)}
    (done : S.factor W H Df = .ok out) : FactorEnd S W H Df out := by
  cases hchecked : P.checkInputs W H Df with
  | error e =>
    cases (factor_of_refused S hchecked).symm.trans done
    exact .refused hchecked
  | ok u =>
  simp only [factor, hchecked, Checked.bind_eq_ok] at done
  obtain ⟨⟨answer, T⟩, hassembled, done⟩ := done
  cases answer with
  | error e =>
    cases done
    exact .unassembled hchecked hassembled
  | ok u =>
  simp only [Checked.bind_eq_ok] at done
  obtain ⟨reply, hreply, done⟩ := done
  cases hanswer : reply.answer with
  | error e =>
    rw [hanswer] at done
    cases done
    exact .zeroPivot hchecked hassembled hreply hanswer
  | ok u =>
    simp only [hanswer, Checked.bind_eq_ok] at done
    obtain ⟨found, hfound, done⟩ := done
    cases done
    exact .factored hchecked hassembled hreply hanswer hfound

/-- Behind the dimension checks a new generation begins.  Its handle holds the scaling, and without
a handle the solver holds no factorization that can be used. -/
theorem factor_of_checked {S : Solver P} {out : Outcome (Handle α) (Solver P)}
    (checked : P.checkInputs W H Df = .ok ()) (done : S.factor W H Df = .ok out) :
    out.state.id = S.id ∧ out.state.generation = S.generation + 1 ∧
      ((∃ e, out.answer = .error e) ∧ out.state.status = .failed ∨
        out.answer = .ok ⟨S.id, S.generation + 1, W⟩ ∧ out.state.status = .factored) := by
  cases factorEnd_of_factor done with
  | refused refused => cases checked.symm.trans refused
  | unassembled _ assembled =>
    have h := assemble_standing assembled
    exact ⟨h.id_eq, h.generation_eq, .inl ⟨⟨_, rfl⟩, h.status_eq⟩⟩
  | zeroPivot _ assembled _ _ =>
    have h := assemble_standing assembled
    exact ⟨h.id_eq, h.generation_eq, .inl ⟨⟨_, rfl⟩, h.status_eq⟩⟩
  | factored _ assembled _ _ _ =>
    have h := assemble_standing assembled
    refine ⟨h.id_eq, h.generation_eq, .inr ⟨?_, rfl⟩⟩
    rw [h.id_eq, h.generation_eq]
    rfl

/-- A handle is handed out only behind the dimension checks. -/
theorem checked_of_factor {S : Solver P} {out : Outcome (Handle α) (Solver P)} {handle : Handle α}
    (done : S.factor W H Df = .ok out) (issued : out.answer = .ok handle) :
    P.checkInputs W H Df = .ok () := by
  cases factorEnd_of_factor done with
  | refused => cases issued
  | unassembled checked _ => exact checked
  | zeroPivot checked _ _ _ => exact checked
  | factored checked _ _ _ _ => exact checked

/-! ### Solving -/

/-- The matrix, its pivots and its unfactored copy are those of the other state. -/
structure SameFactors (S T : Solver P) : Prop where
  K_eq : T.K = S.K
  record_eq : T.record = S.record
  copy_eq : T.copy = S.copy

omit [Scalar α] in
theorem SameFactors.trans {S T U : Solver P} (h : SameFactors S T) (h' : SameFactors T U) :
    SameFactors S U :=
  ⟨h'.K_eq.trans h.K_eq, h'.record_eq.trans h.record_eq, h'.copy_eq.trans h.copy_eq⟩

/-- A handle that is rejected leaves everything as it is. -/
theorem solve_of_rejected {S : Solver P} {handle : Handle α} {e : KktError} {events : List Event}
    (rejected : S.checkHandle handle = .error (e, events)) (rhs : Rhs α) :
    S.solve handle rhs = .ok ⟨.error e, (S, rhs), events⟩ := by
  simp only [solve, rejected]
  rfl

section

variable {S T : Solver P} {handle : Handle α} {rhs : Rhs α} {e : DimensionError}

/-- Parts of the wrong length leave everything as it is. -/
theorem solve_of_wrongLength (accepted : S.checkHandle handle = .ok ())
    (refused : P.checkRhs rhs = .error e) :
    S.solve handle rhs = .ok ⟨.error (.dimension e), (S, rhs), []⟩ := by
  simp only [solve, accepted, refused, Checked.pure_eq_ok]

variable (accepted : S.checkHandle handle = .ok ()) (fits : P.checkRhs rhs = .ok ())
include accepted fits

/-- The right hand side cannot be scaled. -/
theorem solve_of_unscaled (loaded : S.load handle.scaling rhs = .ok ⟨.error e, T⟩) :
    S.solve handle rhs = .ok ⟨.error (.dimension e), (T, rhs), [.solving S.generation]⟩ := by
  simp only [solve, accepted, fits, loaded, Checked.ok_bind, Checked.pure_eq_ok]

variable {U : Solver P} {events : List Event}
  (loaded : S.load handle.scaling rhs = .ok ⟨.ok (), T⟩)
include loaded

/-- The solution is not finite. -/
theorem solve_of_nonFinite (solved : T.solvePacked = .ok (false, U, events)) :
    S.solve handle rhs = .ok ⟨.error .nonFiniteSolution, ({ U with status := .failed }, rhs),
      .solving S.generation :: (events ++ [.nonFinite])⟩ := by
  simp only [solve, accepted, fits, loaded, solved, Checked.ok_bind, Checked.pure_eq_ok,
    Bool.false_eq_true, if_false]

/-- The solution replaces the right hand side. -/
theorem solve_of_solved (solved : T.solvePacked = .ok (true, U, events)) {found : Rhs α}
    (unloaded : U.unload rhs = .ok ⟨.ok (), found⟩) :
    S.solve handle rhs = .ok ⟨.ok (), (U, found), .solving S.generation :: events⟩ := by
  simp only [solve, accepted, fits, loaded, solved, unloaded, Checked.ok_bind, Checked.pure_eq_ok,
    if_true]
  rfl

end

/-- How a solve ends: with a rejected handle, with parts of the wrong length, with a scaling that
does not fit, with a solution that is not finite, or with a solution on its way out. -/
inductive SolveEnd (S : Solver P) (handle : Handle α) (rhs : Rhs α) :
    Outcome Unit (Solver P × Rhs α) → Prop
  | rejected {e : KktError} {events : List Event}
      (rejected : S.checkHandle handle = .error (e, events)) :
      SolveEnd S handle rhs ⟨.error e, (S, rhs), events⟩
  | wrongLength {e : DimensionError} (accepted : S.checkHandle handle = .ok ())
      (refused : P.checkRhs rhs = .error e) :
      SolveEnd S handle rhs ⟨.error (.dimension e), (S, rhs), []⟩
  | unscaled {T : Solver P} {e : DimensionError} (accepted : S.checkHandle handle = .ok ())
      (fits : P.checkRhs rhs = .ok ()) (loaded : S.load handle.scaling rhs = .ok ⟨.error e, T⟩) :
      SolveEnd S handle rhs ⟨.error (.dimension e), (T, rhs), [.solving S.generation]⟩
  | nonFinite {T U : Solver P} {events : List Event} (accepted : S.checkHandle handle = .ok ())
      (fits : P.checkRhs rhs = .ok ()) (loaded : S.load handle.scaling rhs = .ok ⟨.ok (), T⟩)
      (solved : T.solvePacked = .ok (false, U, events)) :
      SolveEnd S handle rhs ⟨.error .nonFiniteSolution, ({ U with status := .failed }, rhs),
        .solving S.generation :: (events ++ [.nonFinite])⟩
  | unloaded {T U : Solver P} {events : List Event} {reply : Reply DimensionError Unit (Rhs α)}
      (accepted : S.checkHandle handle = .ok ()) (fits : P.checkRhs rhs = .ok ())
      (loaded : S.load handle.scaling rhs = .ok ⟨.ok (), T⟩)
      (solved : T.solvePacked = .ok (true, U, events)) (unloaded : U.unload rhs = .ok reply) :
      SolveEnd S handle rhs ⟨reply.answer.mapError .dimension, (U, reply.state),
        .solving S.generation :: events⟩

theorem solveEnd_of_solve {S : Solver P} {handle : Handle α} {rhs : Rhs α}
    {out : Outcome Unit (Solver P × Rhs α)} (done : S.solve handle rhs = .ok out) :
    SolveEnd S handle rhs out := by
  cases hcheck : S.checkHandle handle with
  | error rejection =>
    obtain ⟨e, events⟩ := rejection
    cases (solve_of_rejected hcheck rhs).symm.trans done
    exact .rejected hcheck
  | ok u =>
  cases hrhs : P.checkRhs rhs with
  | error e =>
    cases (solve_of_wrongLength hcheck hrhs).symm.trans done
    exact .wrongLength hcheck hrhs
  | ok u =>
  simp only [solve, hcheck, hrhs, Checked.bind_eq_ok] at done
  obtain ⟨⟨answer, T⟩, hloaded, done⟩ := done
  cases answer with
  | error e =>
    cases done
    exact .unscaled hcheck hrhs hloaded
  | ok u =>
  simp only [Checked.bind_eq_ok] at done
  obtain ⟨⟨accepted, U, events⟩, hsolved, done⟩ := done
  cases accepted with
  | false =>
    cases done
    exact .nonFinite hcheck hrhs hloaded hsolved
  | true =>
    simp only [if_true, Checked.bind_eq_ok] at done
    obtain ⟨reply, hreply, done⟩ := done
    cases done
    exact .unloaded hcheck hrhs hloaded hsolved hreply

theorem load_keeps {S : Solver P} {rhs : Rhs α} {reply : Reply DimensionError Unit (Solver P)}
    (done : S.load W rhs = .ok reply) : SameStanding S reply.state ∧ SameFactors S reply.state := by
  simp only [load, Checked.bind_eq_ok] at done
  obtain ⟨u₁, -, u₂, -, g, -, scaled, -, done⟩ := done
  cases hanswer : scaled.answer with
  | error e =>
    rw [hanswer] at done
    cases done
    exact ⟨⟨rfl, rfl, rfl⟩, ⟨rfl, rfl, rfl⟩⟩
  | ok u =>
    simp only [hanswer, Checked.bind_eq_ok] at done
    obtain ⟨packed, -, done⟩ := done
    cases done
    exact ⟨⟨rfl, rfl, rfl⟩, ⟨rfl, rfl, rfl⟩⟩

theorem solvePacked_keeps {S T : Solver P} {accepted : Bool} {events : List Event}
    (done : S.solvePacked = .ok (accepted, T, events)) :
    SameStanding S T ∧ SameFactors S T := by
  simp only [solvePacked, Checked.bind_eq_ok] at done
  obtain ⟨u, -, done⟩ := done
  by_cases hrefine : P.settings.refine
  · simp only [if_pos hrefine, Checked.bind_eq_ok] at done
    obtain ⟨refined, -, done⟩ := done
    cases done
    exact ⟨⟨rfl, rfl, rfl⟩, ⟨rfl, rfl, rfl⟩⟩
  · simp only [if_neg hrefine] at done
    cases done
    exact ⟨⟨rfl, rfl, rfl⟩, ⟨rfl, rfl, rfl⟩⟩

omit [Scalar α] in
/-- A handle of another solver is foreign. -/
theorem checkHandle_foreign {S : Solver P} {handle : Handle α} (h : handle.solver ≠ S.id) :
    S.checkHandle handle = .error (.foreignFactorization, [.foreign]) := by
  unfold checkHandle
  rw [if_pos h]

omit [Scalar α] in
/-- For a handle of the solver itself the generation is compared before the status. -/
theorem checkHandle_own {S : Solver P} {handle : Handle α} (h : handle.solver = S.id) :
    S.checkHandle handle =
      if handle.generation ≠ S.generation then
        .error (.staleFactorization handle.generation S.generation,
          [.stale handle.generation S.generation])
      else if S.status ≠ .factored then .error (.notFactored, [])
      else .ok () := by
  unfold checkHandle
  rw [if_neg (not_not.mpr h)]

/-- A handle is accepted right after it was issued. -/
theorem accepts_issued {S : Solver P} {out : Outcome (Handle α) (Solver P)} {handle : Handle α}
    (done : S.factor W H Df = .ok out) (issued : out.answer = .ok handle) :
    out.state.checkHandle handle = .ok () := by
  obtain ⟨hid, hgeneration, ⟨⟨e, he⟩, -⟩ | ⟨hissued, hstatus⟩⟩ :=
    factor_of_checked (checked_of_factor done issued) done
  · cases issued.symm.trans he
  · cases issued.symm.trans hissued
    rw [checkHandle_own hid.symm, if_neg (not_not.mpr hgeneration.symm),
      if_neg (not_not.mpr hstatus)]

omit [Scalar α] in
/-- The check of a handle has an error of its own for every reason to reject it. -/
theorem checkHandle_ne_nonFinite (S : Solver P) (handle : Handle α) (events : List Event) :
    S.checkHandle handle ≠ .error (.nonFiniteSolution, events) := by
  intro h
  unfold checkHandle at h
  split at h
  · cases h
  split at h
  · cases h
  split at h
  · cases h
  · cases h

/-- A solve leaves the factors alone, and only a solution that is not finite takes the solver's
status away. -/
theorem solve_keeps {S : Solver P} {handle : Handle α} {rhs : Rhs α}
    {out : Outcome Unit (Solver P × Rhs α)} (done : S.solve handle rhs = .ok out) :
    out.state.1.id = S.id ∧ out.state.1.generation = S.generation ∧
      SameFactors S out.state.1 ∧
      (out.answer = .error .nonFiniteSolution ∧ out.state.1.status = .failed ∨
        out.answer ≠ .error .nonFiniteSolution ∧ out.state.1.status = S.status) := by
  cases solveEnd_of_solve done with
  | rejected rejected =>
    refine ⟨rfl, rfl, ⟨rfl, rfl, rfl⟩, .inr ⟨?_, rfl⟩⟩
    rintro ⟨⟩
    exact checkHandle_ne_nonFinite S handle _ rejected
  | wrongLength => exact ⟨rfl, rfl, ⟨rfl, rfl, rfl⟩, .inr ⟨nofun, rfl⟩⟩
  | unscaled _ _ loaded =>
    obtain ⟨hstanding, hsame⟩ := load_keeps loaded
    exact ⟨hstanding.id_eq, hstanding.generation_eq, hsame, .inr ⟨nofun, hstanding.status_eq⟩⟩
  | nonFinite _ _ loaded solved =>
    obtain ⟨hstanding, hsame⟩ := load_keeps loaded
    obtain ⟨hstanding', hsame'⟩ := solvePacked_keeps solved
    have hfactors := hsame.trans hsame'
    exact ⟨hstanding'.id_eq.trans hstanding.id_eq,
      hstanding'.generation_eq.trans hstanding.generation_eq,
      ⟨hfactors.K_eq, hfactors.record_eq, hfactors.copy_eq⟩, .inl ⟨rfl, rfl⟩⟩
  | @unloaded T U events reply _ _ loaded solved _ =>
    obtain ⟨hstanding, hsame⟩ := load_keeps loaded
    obtain ⟨hstanding', hsame'⟩ := solvePacked_keeps solved
    refine ⟨hstanding'.id_eq.trans hstanding.id_eq,
      hstanding'.generation_eq.trans hstanding.generation_eq, hsame.trans hsame',
      .inr ⟨?_, hstanding'.status_eq.trans hstanding.status_eq⟩⟩
    show reply.answer.mapError KktError.dimension ≠ _
    cases reply.answer with
    | error e => nofun
    | ok u => nofun

end ConicSaddle.Solver
