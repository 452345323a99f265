import ConicSaddle.Proofs.Kkt.Alike

/-!
# Calls leave no trace

In a run of a session, each factorization and the solves after it answer as if the solver had just
been made.  Nothing is assumed of the arithmetic but that zero counts as zero, so that the buffers
may be full of infinities and NaNs when a call begins.

* `Session.Run.created`: the problem of every solver can be made again;
* `Session.FirstCall`: a factorization with a solver that was just made;
* `Session.no_leakage`: every factorization of a run, and every solve with the handle it issued,
  compared with a first call.
-/

namespace ConicSaddle

variable {α : Type}

/-- A problem can be made again from its data. -/
theorem Problem.new_again {G A : Matrix α} {dims : ConeDims} {mnl : ℕ} {settings : Settings α}
    {P : Problem α} (done : Problem.new G dims A mnl settings = .ok (.ok P)) :
    Problem.new P.G P.dims P.A P.mnl P.settings = .ok (.ok P) := by
  have hP : P.G = G ∧ P.dims = dims ∧ P.A = A ∧ P.mnl = mnl ∧ P.settings = settings := by
    unfold Problem.new at done
    split at done
    · cases done
    split at done
    · cases done
    split at done
    · split at done
      · split at done
        · cases done
        split at done
        · split at done
          · cases done
            exact ⟨rfl, rfl, rfl, rfl, rfl⟩
          · cases done
        · cases done
      · cases done
    · cases done
  obtain ⟨rfl, rfl, rfl, rfl, rfl⟩ := hP
  exact done

variable [Scalar α] {P : Problem α}

/-- Solvers that were just made differ in their numbers only. -/
theorem Solver.new_eq (P : Problem α) (id id' : ℕ) :
    Solver.new P id' = (fun S => { S with id := id' }) <$> Solver.new P id := by
  simp only [Solver.new, map_bind]
  rfl

namespace Session

variable {s t : Session α} {S : Solver P} {id : ℕ}

/-- The problem of every solver in a run can be made again, and a solver for it. -/
theorem Run.created {history : List (Moment α)} (run : Run history s)
    (hS : s.solvers[id]? = some ⟨P, S⟩) :
    Problem.new P.G P.dims P.A P.mnl P.settings = .ok (.ok P) ∧ ∃ F, Solver.new P 0 = .ok F := by
  refine run.invariant (fun P _ => Problem.new P.G P.dims P.A P.mnl P.settings = .ok (.ok P) ∧
    ∃ F, Solver.new P 0 = .ok F) ?_ ?_ ?_ hS
  · rintro P S ⟨G, dims, A, mnl, settings, hP⟩ hnew
    rw [Solver.new_eq P id 0, hnew]
    exact ⟨Problem.new_again hP, _, rfl⟩
  · intro P S W H Df out h _
    exact h
  · intro P S handle rhs out h _
    exact h

/-- A solve of a session shows what the solver's solve shows. -/
theorem shown_solve {j : Fin s.solvers.size} (hS : s.solvers[j.val]? = some ⟨P, S⟩)
    (handle : Handle α) (rhs : Rhs α) :
    Outcome.shown <$> s.solve j handle rhs = Outcome.shown <$> S.solve handle rhs := by
  rw [solve_eq hS, Functor.map_map]
  rfl

/-- A factorization with a solver that was just made, the only one of its session. -/
structure FirstCall (P : Problem α) (W : Scaling α) (H Df : Option (Matrix α))
    (fresh : Session α) (answer : Except KktError (Handle α)) (made : Session α) : Prop where
  created : ∃ events,
    Session.empty.create P.G P.dims P.A P.mnl P.settings = .ok ⟨.ok 0, fresh, events⟩
  factored : ∃ (h : 0 < fresh.solvers.size) (events : List Event),
    fresh.factor ⟨0, h⟩ W H Df = .ok ⟨answer, made, events⟩

/-- The first call with a solver is made as soon as there is an answer to it. -/
theorem firstCall_of_factor {W : Scaling α} {H Df : Option (Matrix α)} {F : Solver P}
    (hP : Problem.new P.G P.dims P.A P.mnl P.settings = .ok (.ok P))
    (hF : Solver.new P 0 = .ok F) {out : Outcome (Handle α) (Solver P)}
    (done : F.factor W H Df = .ok out) :
    FirstCall P W H Df ⟨#[⟨P, F⟩]⟩ out.answer ⟨#[⟨P, out.state⟩]⟩ where
  created := by
    refine ⟨[Solver.created P], ?_⟩
    have hnew : Solver.new P (empty : Session α).solvers.size = .ok F := hF
    simp only [create, hP, hnew, Checked.ok_bind, Checked.pure_eq_ok]
    rfl
  factored := ⟨Nat.one_pos, out.events,
    factor_of_solver (s := ⟨#[⟨P, F⟩]⟩) (j := ⟨0, Nat.one_pos⟩) rfl done⟩

/-- While a handle is accepted, a solve with it is one with the solver that issued it. -/
theorem Run.solve_alike [ZeroRule α] {later earlier : List (Moment α)} {W : Scaling α}
    {H Df : Option (Matrix α)} {handle token : Handle α} {U F : Solver P}
    (run : Run (later ++ ⟨.factor id W H Df (.ok handle), t⟩ :: earlier) s)
    (hS : t.solvers[id]? = some ⟨P, S⟩) (hU : s.solvers[id]? = some ⟨P, U⟩)
    (checked : P.checkInputs W H Df = .ok ()) (accepted : U.checkHandle handle = .ok ())
    (alike : Solver.Alike S F) (room : P.dims.maxOrder ≤ F.workspace.order)
    (token_scaling : token.scaling = W) (token_accepted : F.checkHandle token = .ok ())
    {rhs : Rhs α} (hrhs : P.checkRhs rhs = .ok ()) :
    Outcome.shown <$> U.solve handle rhs = Outcome.shown <$> F.solve token rhs := by
  obtain ⟨t', hrun⟩ := run.of_append
  obtain ⟨Q, R, hR, hstatus, hhandle⟩ := hrun.issued
  cases hR.symm.trans hS
  obtain ⟨T, hT, hsince⟩ := run.since hS
  cases hT.symm.trans hU
  have hown : handle.solver = U.id := by rw [hhandle, (run.standing hU).1]
  obtain ⟨hcontinued, hunspoilt⟩ :=
    (hsince.accepted_iff hown (by rw [hhandle]) hstatus).mp accepted
  have hzero := Session.restarts_eq_zero.mpr hcontinued
  have hscaling : handle.scaling = W := by rw [hhandle]
  -- since then nothing happened to the factors and to the status
  have hUF : Solver.Alike U F := alike.of_same (hsince.same hzero) ⟨rfl, rfl, rfl⟩
    (hsince.unspoilt hzero hunspoilt) rfl
  refine Solver.solve_alike hUF (run.workspace hU) room (token_scaling.trans hscaling.symm) ?_
    accepted token_accepted hrhs
  rw [hscaling]
  exact (Problem.accepts_of_checkInputs checked).scaling

/-- **Calls leave no trace.**  Take a factorization anywhere in a run, behind its dimension checks,
and the same factorization as the first call with a new solver for the same data.  Both assemble the
same matrix and give the same answer but for the numbers in the handle, and they leave the same
factored matrix, pivots and inertia.  Every solve with the handle, at any later time when it is
accepted, answers and leaves the right hand side as it would right after that first call. -/
theorem no_leakage [ZeroRule α] {later earlier : List (Moment α)} {W : Scaling α}
    {H Df : Option (Matrix α)} {answer : Except KktError (Handle α)}
    (run : Run (later ++ ⟨.factor id W H Df answer, t⟩ :: earlier) s)
    (hS : t.solvers[id]? = some ⟨P, S⟩) (checked : P.checkInputs W H Df = .ok ()) :
    ∃ (before fresh made : Session α) (first : Except KktError (Handle α)) (S₀ F₀ F : Solver P),
      Run earlier before ∧ before.solvers[id]? = some ⟨P, S₀⟩ ∧
      FirstCall P W H Df fresh first made ∧ fresh.solvers[0]? = some ⟨P, F₀⟩ ∧
      made.solvers[0]? = some ⟨P, F⟩ ∧
      (∃ K, S₀.assembled W H Df = .ok K ∧ F₀.assembled W H Df = .ok K) ∧
      first = answer.map (fun handle => ⟨0, 1, handle.scaling⟩) ∧
      S.K = F.K ∧ S.record = F.record ∧ S.inertia = F.inertia ∧
      ∀ {j : ℕ} (hj : j < s.solvers.size) (h : 0 < made.solvers.size) {handle token : Handle α}
        {rhs : Rhs α}, answer = .ok handle → first = .ok token →
        s.solvers[j].solver.checkHandle handle = .ok () →
        s.solvers[j].problem.checkRhs rhs = .ok () →
        Outcome.shown <$> s.solve ⟨j, hj⟩ handle rhs =
          Outcome.shown <$> made.solve ⟨0, h⟩ token rhs := by
  obtain ⟨t', hrun⟩ := run.of_append
  obtain ⟨before, P', S₀, out, hbefore, hS₀, hout, rfl, ht⟩ := hrun.factored
  cases ht.symm.trans hS
  obtain ⟨hP, F₀, hF₀⟩ := hbefore.created hS₀
  have hwork := hbefore.workspace hS₀
  have hwork' : P.dims.maxOrder ≤ F₀.workspace.order := Nat.le_of_eq (new_order hF₀).symm
  obtain ⟨hid, hgeneration, -⟩ := Solver.new_eq_ok hF₀
  obtain ⟨U, V, hU, hV, hK, -⟩ :=
    Solver.exists_assemble_alike (Problem.accepts_of_checkInputs checked) hwork hwork'
  obtain ⟨out', hout', halike, hanswer⟩ :=
    Solver.exists_factor_alike checked hwork hwork' hout
  refine ⟨before, _, _, out'.answer, S₀, F₀, out'.state, hbefore, hS₀,
    firstCall_of_factor hP hF₀ hout', rfl, rfl, ⟨U.K, ?_, ?_⟩, ?_, halike.K_eq, halike.record_eq,
    halike.inertia_eq, ?_⟩
  · rw [Solver.assembled, hU, Checked.map_ok]
  · rw [Solver.assembled, hV, Checked.map_ok, hK]
  · rw [hanswer, hid, hgeneration]
  · intro j hj h handle token rhs hissued hfirst accepted hrhs
    rw [hissued] at run
    have hX : s.solvers[j]? = some s.solvers[j] := Array.getElem?_eq_getElem hj
    generalize s.solvers[j] = X at hX accepted hrhs
    obtain ⟨Q, T⟩ := X
    obtain rfl := run.issuer_eq hX accepted
    obtain ⟨T', hT', -⟩ := run.since hS
    cases hT'.symm.trans hX
    have hscaling : token.scaling = W := by
      obtain ⟨-, -, ⟨⟨e, he⟩, -⟩ | ⟨htoken, -⟩⟩ := Solver.factor_of_checked checked hout'
      · cases hfirst.symm.trans he
      · cases hfirst.symm.trans htoken
        rfl
    rw [shown_solve hX, shown_solve (P := P) (S := out'.state) rfl]
    refine run.solve_alike hS hX checked accepted halike ?_ hscaling
      (Solver.accepts_issued hout' hfirst) hrhs
    rwa [Solver.factor_order hwork' hout']

/-- Whether the solver for one variable has a handle after it has seen a NaN. -/
def afterNaN : Checked Bool := do
  let W : Scaling Float := ⟨#[], #[], #[], #[], [], [], [], []⟩
  let made ← oneVariable
  if h : 0 < made.state.solvers.size then
    let spoilt ← made.state.factor ⟨0, h⟩ W (some ⟨1, 1, ⟨#v[0 / 0]⟩⟩) none
    if h : 0 < spoilt.state.solvers.size then
      let factored ← spoilt.state.factor ⟨0, h⟩ W (some ⟨1, 1, ⟨#v[3]⟩⟩) none
      pure factored.answer.isOk
    else
      pure false
  else
    pure false

/-- The NaN of an earlier factorization is gone from the solver for one variable. -/
theorem no_leakage_afterNaN :
    ∃ (earlier : List (Moment Float)) (s made fresh : Session Float) (P : Problem Float)
      (S F : Solver P) (W : Scaling Float) (H Df : Option (Matrix Float))
      (handle token : Handle Float),
      Run (⟨.factor 0 W H Df (.ok handle), s⟩ :: earlier) s ∧ earlier.length = 2 ∧
        s.solvers[0]? = some ⟨P, S⟩ ∧ FirstCall P W H Df fresh (.ok token) made ∧
        made.solvers[0]? = some ⟨P, F⟩ ∧ S.K = F.K ∧ S.record = F.record := by
  have hdone : afterNaN = .ok true := by decide +kernel
  obtain ⟨made, hmade, hdone⟩ := Checked.bind_eq_ok.mp hdone
  by_cases h : 0 < made.state.solvers.size
  · rw [dif_pos h] at hdone
    obtain ⟨spoilt, hspoilt, hdone⟩ := Checked.bind_eq_ok.mp hdone
    by_cases h' : 0 < spoilt.state.solvers.size
    · rw [dif_pos h'] at hdone
      obtain ⟨factored, hfactored, hdone⟩ := Checked.bind_eq_ok.mp hdone
      have run := ((Run.start.next (.create hmade)).next (.factor ⟨0, h⟩ hspoilt)).next
        (.factor ⟨0, h'⟩ hfactored)
      cases hanswer : factored.answer with
      | error e =>
        rw [hanswer] at hdone
        cases hdone
      | ok handle =>
        rw [hanswer, ← List.nil_append (_ :: _)] at run
        obtain ⟨before, P, S, out, -, -, hout, hissued, hS⟩ := Run.factored run
        have hchecked := Solver.checked_of_factor hout hissued.symm
        obtain ⟨-, fresh, first, answer, -, -, F, -, -, hcall, -, hF, -, hfirst, hK, hrecord, -⟩ :=
          no_leakage run hS hchecked
        rw [hfirst] at hcall
        exact ⟨_, _, first, fresh, P, out.state, F, _, _, _, handle, _, run, rfl, hS, hcall, hF, hK,
          hrecord⟩
    · rw [dif_neg h'] at hdone
      cases hdone
  · rw [dif_neg h] at hdone
    cases hdone

end Session

end ConicSaddle
