import ConicSaddle.Proofs.Kkt.Total
import ConicSaddle.Proofs.Nan.Rounding

/-!
# Solutions that are finite

Whether a solution is finite is decided on the packed vector, by a test of its entries or by one of
the ends of refinement, and it is answered with the unpacked vector.

* `unpackedVector_isFinite`: unpacking keeps finite entries finite;
* `Refinement.Ends.isFinite`: a vector that is accepted was tested, wherever refinement ended;
* `Solver.isFinite_of_solvePacked`, `Solver.accepted_of_unguarded`: the packed solution with a test
  and without;
* `Solver.solve_guarded`, `Solver.solve_unguarded`: the answers of a solve;
* `Session.finite_solution`: the statement for every reachable state.
-/

namespace ConicSaddle

open Vec (entries)

variable {α : Type} [Scalar α]

/-! ### Unpacking -/

/-- An entry of an unpacked block is an entry of the packed one, or one multiplied by the reciprocal
of the square root of two. -/
theorem ConeBlock.isFinite_unpacked [ShrinkRules α] (b : ConeBlock) {y : ℕ → α}
    (hy : ∀ t < b.packedSize, Scalar.isFinite (y t) = true) :
    ∀ i < b.unpackedSize, Scalar.isFinite (b.unpacked y i) = true := by
  intro i hi
  cases b with
  | nonnegative l => exact hy i hi
  | secondOrder q => exact hy i hi
  | semidefinite k =>
    have hik : i < k * k := hi
    unfold unpacked
    simp only [dif_pos hik]
    generalize hp : lowerPlace _ _ = p
    have hmem : p ∈ lowerTriangle k := hp ▸ lowerPlace_mem _ _
    have hlt : (lowerTriangle k).idxOf p < triangle k := by
      rw [← length_lowerTriangle]
      exact List.idxOf_lt_length_of_mem hmem
    unfold unpackedAt
    split
    · exact hy _ hlt
    · exact ShrinkRules.isFinite_mul_invRootTwo (hy _ hlt)

theorem unpackedVector_isFinite [ShrinkRules α] {dims : ConeDims} {mnl : ℕ} {y : ℕ → α}
    (hy : ∀ t < mnl + dims.packedSize, Scalar.isFinite (y t) = true) :
    ∀ i < mnl + dims.unpackedSize, Scalar.isFinite (unpackedVector dims mnl y i) = true := by
  rw [← ConeDims.total_layout_packed] at hy
  rw [← ConeDims.total_layout]
  exact blockwise_forall (p := fun v => Scalar.isFinite v = true)
    (q := fun v => Scalar.isFinite v = true) (fun b _ _ hx => b.isFinite_unpacked hx) hy

/-! ### Refinement -/

namespace Refinement

variable {n : ℕ} {R : Refinement n α} {left : ℕ} {x z : Vector α n} {accepted : Bool}

theorem Halts.isFinite (halts : R.Halts x accepted z) (h : accepted = true) :
    Vec.isFinite z.toArray = true := by
  cases halts with
  | diverged => cases h
  | converged => exact h
  | stalled => exact h

/-- A vector that was accepted is finite, wherever refinement ended. -/
theorem Ends.isFinite (ends : R.Ends left x accepted z) (h : accepted = true) :
    Vec.isFinite z.toArray = true := by
  induction ends with
  | limit x => exact h
  | halt halts => exact halts.isFinite h
  | step _ _ ih => exact ih h

end Refinement

/-! ### A solver -/

/-- The three parts of a right hand side, or of a solution, have finite entries. -/
structure Rhs.Finite (rhs : Rhs α) : Prop where
  x : ∀ v ∈ rhs.x, Scalar.isFinite v = true
  y : ∀ v ∈ rhs.y, Scalar.isFinite v = true
  z : ∀ v ∈ rhs.z, Scalar.isFinite v = true

/-- Solutions are tested, at the end of refinement or by themselves. -/
def Settings.Guarded (settings : Settings α) : Prop :=
  settings.refine = true ∨ settings.checkFinite = true

namespace Solver

variable {P : Problem α}

/-- A solution that is accepted after a test has finite entries. -/
theorem isFinite_of_solvePacked {S T : Solver P} (guarded : P.settings.Guarded)
    (hsplits : S.record.Splits 0) {events : List Event}
    (done : S.solvePacked = .ok (true, T, events)) : Vec.isFinite T.u.toArray = true := by
  by_cases hrefine : P.settings.refine = true
  · obtain ⟨verdict, T', events', u, hpacked, hrefines⟩ :=
      exists_solvePacked_refined hrefine hsplits
    cases hpacked.symm.trans done
    exact hrefines.ends.isFinite rfl
  · have hcheck : P.settings.checkFinite = true := guarded.resolve_left hrefine
    simp only [solvePacked, if_neg hrefine, hcheck, Checked.bind_eq_ok] at done
    obtain ⟨u, -, done⟩ := done
    obtain ⟨hjudged, hstate⟩ := Prod.mk.inj (Except.ok.inj done)
    obtain ⟨rfl, -⟩ := Prod.mk.inj hstate
    exact hjudged

/-- Without a test every solution is accepted. -/
theorem accepted_of_unguarded {S T : Solver P} (unguarded : ¬P.settings.Guarded) {accepted : Bool}
    {events : List Event} (done : S.solvePacked = .ok (accepted, T, events)) :
    accepted = true := by
  obtain ⟨hrefine, hcheck⟩ := not_or.mp unguarded
  simp only [solvePacked, if_neg hrefine, Bool.eq_false_iff.mpr hcheck, Checked.bind_eq_ok] at done
  obtain ⟨u, -, done⟩ := done
  exact (Prod.mk.inj (Except.ok.inj done)).1.symm

/-- What is unloaded from a packed vector with finite entries. -/
theorem finite_of_unload [ShrinkRules α] {S : Solver P} {rhs found : Rhs α}
    (hrhs : P.checkRhs rhs = .ok ()) (hfinite : Vec.isFinite S.u.toArray = true)
    {answer : Except DimensionError Unit} (done : S.unload rhs = .ok ⟨answer, found⟩) :
    found.Finite := by
  obtain ⟨found', hunload, ⟨hx, hxentries⟩, ⟨hy, hyentries⟩, hz, hzentries⟩ := exists_unload S hrhs
  cases hunload.symm.trans done
  have horder : P.order = P.vars + P.eqs + (P.mnl + P.packed) := rfl
  have hpacked := ConeDims.numelPacked_eq_ok P.numelPacked_eq
  have hunpacked := ConeDims.numelUnpacked_eq_ok P.numelUnpacked_eq
  have hrows : P.rows = P.mnl + P.unpacked := rfl
  have hu : ∀ i < P.order, Scalar.isFinite (entries S.u.toArray i) = true := by
    intro i hi
    rw [Vec.entries_of_lt (by rwa [S.u.size_toArray])]
    exact Array.all_eq_true.mp hfinite i _
  -- each part is an array whose entries are finite
  have hpart : ∀ xs : Array α, (∀ i < xs.size, Scalar.isFinite (entries xs i) = true) →
      ∀ v ∈ xs, Scalar.isFinite v = true := by
    intro xs hxs v hv
    obtain ⟨i, hi, rfl⟩ := Array.mem_iff_getElem.mp hv
    rw [← Vec.entries_of_lt hi]
    exact hxs i hi
  constructor
  · refine hpart _ fun i hi => ?_
    rw [hxentries i (by omega)]
    exact hu i (by omega)
  · refine hpart _ fun i hi => ?_
    rw [hyentries i (by omega)]
    exact hu _ (by omega)
  · refine hpart _ fun i hi => ?_
    rw [hzentries i (by omega)]
    refine unpackedVector_isFinite (fun t ht => ?_) i (by omega)
    rw [shift_apply]
    exact hu _ (by omega)

/-- After a test a solve that succeeds leaves a finite solution. -/
theorem solve_guarded [ShrinkRules α] {S : Solver P} (guarded : P.settings.Guarded)
    (hsplits : S.status = .factored → S.record.Splits 0) {handle : Handle α} {rhs : Rhs α}
    {out : Outcome Unit (Solver P × Rhs α)} (done : S.solve handle rhs = .ok out)
    (solved : out.answer = .ok ()) : out.state.2.Finite := by
  cases solveEnd_of_solve done with
  | rejected => cases solved
  | wrongLength => cases solved
  | unscaled => cases solved
  | nonFinite => cases solved
  | unloaded accepted fits loaded packed unloaded =>
    obtain ⟨-, hsame⟩ := load_keeps loaded
    have hfinite := isFinite_of_solvePacked guarded (by
      rw [hsame.record_eq]
      exact hsplits (status_of_accepted accepted)) packed
    exact finite_of_unload fits hfinite unloaded

/-- Without a test a solve never answers that the solution is not finite. -/
theorem solve_unguarded {S : Solver P} (unguarded : ¬P.settings.Guarded) {handle : Handle α}
    {rhs : Rhs α} {out : Outcome Unit (Solver P × Rhs α)} (done : S.solve handle rhs = .ok out) :
    out.answer ≠ .error .nonFiniteSolution := by
  cases solveEnd_of_solve done with
  | rejected rejected =>
    rintro ⟨⟩
    exact checkHandle_ne_nonFinite S handle _ rejected
  | wrongLength => nofun
  | unscaled => nofun
  | nonFinite _ _ _ packed => cases accepted_of_unguarded unguarded packed
  | @unloaded T U events reply _ _ _ _ _ =>
    show reply.answer.mapError KktError.dimension ≠ _
    cases reply.answer with
    | error e => nofun
    | ok u => nofun

end Solver

/-! ### In a run -/

namespace Session

variable {s : Session α} {history : List (Moment α)}

/-- **A solution that was tested is finite.**  In any state of a session a solve comes to an answer,
whatever the numbers are.  If solutions are refined or tested, and the solve succeeds, then every
entry of the three parts of the solution is finite.  If solutions are neither refined nor tested,
then a solve with a handle that is accepted and with parts of the right lengths succeeds; the handle
is accepted after it, and the factors are the same. -/
theorem finite_solution [ShrinkRules α] (run : Run history s) {id : ℕ}
    (hid : id < s.solvers.size) (handle : Handle α) (rhs : Rhs α) :
    let P := s.solvers[id].problem
    let S := s.solvers[id].solver
    ∃ out, s.solve ⟨id, hid⟩ handle rhs = .ok out ∧
      (P.settings.Guarded → out.answer = .ok () → out.state.2.Finite) ∧
      (¬P.settings.Guarded →
        (∃ j W H Df t, ⟨.factor j W H Df (.ok handle), t⟩ ∈ history) →
        S.checkHandle handle = .ok () → P.checkRhs rhs = .ok () →
        out.answer = .ok () ∧ ∃ T : Solver P, out.state.1.solvers[id]? = some ⟨P, T⟩ ∧
          T.checkHandle handle = .ok () ∧ S.SameFactors T) := by
  have hX : s.solvers[id]? = some s.solvers[id] := Array.getElem?_eq_getElem hid
  generalize s.solvers[id] = X at hX
  obtain ⟨P, S⟩ := X
  obtain ⟨out, hsolve, hanswer⟩ :=
    Solver.exists_solve_total (run.workspace hX) (run.splits hX) handle rhs
  refine ⟨_, solve_of_solver (j := ⟨id, hid⟩) hX hsolve, ?_, ?_⟩
  · intro guarded solved
    exact Solver.solve_guarded guarded (run.splits hX) hsolve solved
  · intro unguarded issued accepted sizes
    have hnever := Solver.solve_unguarded unguarded hsolve
    have hsolved := (hanswer accepted sizes (run.scaling_fits hX issued accepted)).resolve_right
      hnever
    obtain ⟨hnumber, hgeneration, hsame, hstatus⟩ := Solver.solve_keeps hsolve
    have hkept := (hstatus.resolve_left fun h => hnever h.1).2
    refine ⟨hsolved, out.state.1, ?_, ?_, hsame⟩
    · rw [Array.getElem?_set, if_pos rfl]
    · unfold Solver.checkHandle at accepted ⊢
      rwa [hnumber, hgeneration, hkept]

/-! ### One variable and two cones -/

/-- The problem with one variable, one row of the orthant and a semidefinite cone of order two,
whose solutions are refined and tested, or neither. -/
def twoCones (guarded : Bool) : Problem Float where
  dims := { ConeDims.empty with l := 1, s := [2] }
  mnl := 0
  G := ⟨5, 1, .replicate 5 1 1⟩
  A := ⟨0, 1, .replicate 0 1 0⟩
  settings := ⟨"auto", guarded, 0, 0, 1, 5, guarded⟩
  backend := .native
  unpacked := 5
  packed := 4
  numelUnpacked_eq := rfl
  numelPacked_eq := rfl
  G_rows := rfl
  A_cols := rfl
  rows_fit := by decide
  order_fits := by decide

/-- The scaling that leaves both cones alone. -/
def twoConesScaling : Scaling Float :=
  let unit : Matrix Float := ⟨2, 2, .ofFn fun i j => if i = j then 1 else 0⟩
  ⟨#[], #[], #[1], #[1], [], [], [unit], [unit]⟩

/-- A right hand side for it. -/
def twoConesRhs : Rhs Float := ⟨#[1], #[], #[3, 1, 2, 2, 1]⟩

/-- Whether the right hand side is answered with a solution. -/
def twoConesSolve (guarded : Bool) : Checked Bool := do
  let S ← Solver.new (twoCones guarded) 0
  let factored ← S.factor twoConesScaling none none
  match factored.answer with
  | .error _ => pure false
  | .ok handle =>
    let solved ← factored.state.solve handle twoConesRhs
    pure solved.answer.isOk

/-- A run that leaves one solver, which accepts the handle of its factorization and answers the
right hand side with a solution. -/
theorem exists_run_twoCones (guarded : Bool) (hdone : twoConesSolve guarded = .ok true) :
    ∃ (history : List (Moment Float)) (U : Solver (twoCones guarded)) (handle : Handle Float)
      (solved : Outcome Unit (Solver (twoCones guarded) × Rhs Float)),
      Run history ⟨#[⟨twoCones guarded, U⟩]⟩ ∧
      (∃ j W H Df t, ⟨.factor j W H Df (.ok handle), t⟩ ∈ history) ∧
      U.checkHandle handle = .ok () ∧ U.solve handle twoConesRhs = .ok solved ∧
      solved.answer = .ok () := by
  obtain ⟨S, hnew, hdone⟩ := Checked.bind_eq_ok.mp hdone
  obtain ⟨factored, hfactor, hdone⟩ := Checked.bind_eq_ok.mp hdone
  obtain ⟨S', hnew', hcreate⟩ : ∃ S', Solver.new (twoCones guarded) 0 = .ok S' ∧
      Session.empty.create (twoCones guarded).G (twoCones guarded).dims (twoCones guarded).A 0
          (twoCones guarded).settings =
        .ok ⟨.ok 0, ⟨#[⟨twoCones guarded, S'⟩]⟩, [Solver.created (twoCones guarded)]⟩ :=
    ⟨_, rfl, rfl⟩
  cases hnew.symm.trans hnew'
  cases hanswer : factored.answer with
  | error e =>
    rw [hanswer] at hdone
    cases hdone
  | ok handle =>
    simp only [hanswer] at hdone
    obtain ⟨solved, hsolve, hok⟩ := Checked.bind_eq_ok.mp hdone
    obtain ⟨history, run, issued, accepted⟩ := exists_run_issued hcreate hfactor hanswer
    refine ⟨history, factored.state, handle, solved, run, ⟨0, _, _, _, _, issued⟩, accepted, hsolve,
      ?_⟩
    cases hsolved : solved.answer with
    | error e =>
      rw [hsolved] at hok
      cases hok
    | ok u => rfl

/-- With tests the right hand side is answered with a finite solution.  Without tests a right hand
side of any number is answered, and the handle is accepted again. -/
theorem finite_solution_twoCones :
    (∃ (history : List (Moment Float)) (U : Solver (twoCones true)) (handle : Handle Float)
      (out : Outcome Unit (Session Float × Rhs Float)),
      Run history ⟨#[⟨twoCones true, U⟩]⟩ ∧ (twoCones true).settings.Guarded ∧
      Session.solve ⟨#[⟨twoCones true, U⟩]⟩ ⟨0, Nat.one_pos⟩ handle twoConesRhs = .ok out ∧
      out.answer = .ok () ∧ out.state.2.Finite) ∧
    ∃ (history : List (Moment Float)) (U : Solver (twoCones false)) (handle : Handle Float),
      Run history ⟨#[⟨twoCones false, U⟩]⟩ ∧ ¬(twoCones false).settings.Guarded ∧
      (∃ j W H Df t, ⟨.factor j W H Df (.ok handle), t⟩ ∈ history) ∧
      U.checkHandle handle = .ok () ∧ ∀ v : Float, ∃ out T,
        Session.solve ⟨#[⟨twoCones false, U⟩]⟩ ⟨0, Nat.one_pos⟩ handle
          ⟨#[v], #[], #[v, v, v, v, v]⟩ = .ok out ∧
        out.answer = .ok () ∧ out.state.1.solvers[0]? = some ⟨twoCones false, T⟩ ∧
        T.checkHandle handle = .ok () := by
  constructor
  · obtain ⟨history, U, handle, solved, run, -, -, hsolve, hsolved⟩ :=
      exists_run_twoCones true (by decide +kernel)
    have hcall := solve_of_solver (s := ⟨#[⟨twoCones true, U⟩]⟩) (j := ⟨0, Nat.one_pos⟩) rfl hsolve
    have guarded : (twoCones true).settings.Guarded := .inl rfl
    obtain ⟨out, hout, hfinite, -⟩ := finite_solution run Nat.one_pos handle twoConesRhs
    cases hcall.symm.trans hout
    exact ⟨history, U, handle, _, run, guarded, hcall, hsolved, hfinite guarded hsolved⟩
  · obtain ⟨history, U, handle, -, run, issued, accepted, -⟩ :=
      exists_run_twoCones false (by decide +kernel)
    have unguarded : ¬(twoCones false).settings.Guarded := by
      rintro (h | h)
      · cases h
      · cases h
    refine ⟨history, U, handle, run, unguarded, issued, accepted, fun v => ?_⟩
    obtain ⟨out, hout, -, hanswer⟩ :=
      finite_solution run Nat.one_pos handle ⟨#[v], #[], #[v, v, v, v, v]⟩
    obtain ⟨hsolved, T, hT, haccepted, -⟩ := hanswer unguarded issued accepted rfl
    exact ⟨out, T, hout, hsolved, hT, haccepted⟩

end Session

end ConicSaddle
