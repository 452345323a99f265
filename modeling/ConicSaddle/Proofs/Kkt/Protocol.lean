import ConicSaddle.Kkt.Session
import ConicSaddle.Proofs.Kkt.Lifecycle

/-!
# The protocol of handles

Runs of a session: any number of solvers, whose calls follow each other in any order.  What became
of a handle can be read off the calls since it was issued.

* `Session.Call`, `Session.Step`, `Session.Run`: a call with its answer, one call, a whole run;
* `Call.Restarts`, `Call.Spoils`: the calls that make earlier handles stale, and the solves whose
  solution is not finite;
* `Fate`, `Step.fate`: what one call does to a solver;
* `Run.invariant`: what is true of every solver in a run;
* `Since`: a solver compared with itself some calls earlier, with `Step.since` for one call and
  `Run.since` for all calls after a moment;
* `handle_protocol`: when a handle is accepted, and what it is refused with otherwise.
-/

namespace ConicSaddle.Session

variable {α : Type}

/-! ### Runs -/

/-- A call of a session with its answer. -/
inductive Call (α : Type)
  | create (answer : Except KktError Nat)
  | factor (id : Nat) (W : Scaling α) (H Df : Option (Matrix α))
      (answer : Except KktError (Handle α))
  | solve (id : Nat) (handle : Handle α) (rhs : Rhs α) (answer : Except KktError Unit)

/-- A call and the session that it left. -/
structure Moment (α : Type) where
  call : Call α
  after : Session α

/-- One call leads from one session to another. -/
inductive Step [Scalar α] : Session α → Call α → Session α → Prop
  | create {s : Session α} {G A : Matrix α} {dims : ConeDims} {mnl : Nat} {settings : Settings α}
      {out : Outcome Nat (Session α)} (done : s.create G dims A mnl settings = .ok out) :
      Step s (.create out.answer) out.state
  | factor {s : Session α} (id : Fin s.solvers.size) {W : Scaling α} {H Df : Option (Matrix α)}
      {out : Outcome (Handle α) (Session α)} (done : s.factor id W H Df = .ok out) :
      Step s (.factor id.val W H Df out.answer) out.state
  | solve {s : Session α} (id : Fin s.solvers.size) {handle : Handle α} {rhs : Rhs α}
      {out : Outcome Unit (Session α × Rhs α)} (done : s.solve id handle rhs = .ok out) :
      Step s (.solve id.val handle rhs out.answer) out.state.1

/-- The calls so far, the last one first, lead from no solvers to the session. -/
inductive Run [Scalar α] : List (Moment α) → Session α → Prop
  | start : Run [] .empty
  | next {history : List (Moment α)} {s t : Session α} {call : Call α} (earlier : Run history s)
      (step : Step s call t) : Run (⟨call, t⟩ :: history) t

/-- The call is a factorization with the solver that passes its dimension checks, whatever it
answers. -/
def Call.Restarts (P : Problem α) (id : Nat) : Call α → Prop
  | .factor j W H Df _ => j = id ∧ P.checkInputs W H Df = .ok ()
  | _ => False

instance (P : Problem α) (id : Nat) : DecidablePred (Call.Restarts P id)
  | .create _ => inferInstanceAs (Decidable False)
  | .factor j W H Df _ => inferInstanceAs (Decidable (j = id ∧ P.checkInputs W H Df = .ok ()))
  | .solve _ _ _ _ => inferInstanceAs (Decidable False)

/-- The call is a solve with the solver whose solution was not finite. -/
def Call.Spoils (id : Nat) : Call α → Prop
  | .solve j _ _ answer => j = id ∧ answer = .error .nonFiniteSolution
  | _ => False

/-- The number of factorizations with the solver that passed their dimension checks. -/
def restarts (P : Problem α) (id : Nat) (history : List (Moment α)) : Nat :=
  history.countP fun m => decide (m.call.Restarts P id)

theorem restarts_append (P : Problem α) (id : Nat) (later earlier : List (Moment α)) :
    restarts P id (later ++ earlier) = restarts P id later + restarts P id earlier :=
  List.countP_append

theorem restarts_cons (P : Problem α) (id : Nat) (m : Moment α) (history : List (Moment α)) :
    restarts P id (m :: history) = restarts P id [m] + restarts P id history :=
  restarts_append P id [m] history

theorem restarts_eq_zero {P : Problem α} {id : Nat} {history : List (Moment α)} :
    restarts P id history = 0 ↔ ∀ m ∈ history, ¬m.call.Restarts P id := by
  simp only [restarts, List.countP_eq_zero, decide_eq_true_eq]

theorem restarts_cons_of_restarts {P : Problem α} {id : Nat} {m : Moment α}
    (h : m.call.Restarts P id) (history : List (Moment α)) :
    restarts P id (m :: history) = restarts P id history + 1 :=
  List.countP_cons_of_pos (decide_eq_true h)

theorem restarts_cons_of_not {P : Problem α} {id : Nat} {m : Moment α}
    (h : ¬m.call.Restarts P id) (history : List (Moment α)) :
    restarts P id (m :: history) = restarts P id history :=
  List.countP_cons_of_neg (by simpa only [decide_eq_true_eq] using h)

/-! ### A solver some calls later -/

/-- A solver compared with what it was before some calls.  The generation counts the calls that
passed their dimension checks.  Without such a call the factors are the same, and the status was
taken away only by a solution that was not finite. -/
structure Since (P : Problem α) (id : Nat) (calls : List (Moment α)) (S T : Solver P) : Prop where
  id_eq : T.id = S.id
  generation_eq : T.generation = S.generation + restarts P id calls
  same : restarts P id calls = 0 → S.SameFactors T
  spoilt : restarts P id calls = 0 → (∃ m ∈ calls, m.call.Spoils id) → T.status = .failed
  unspoilt : restarts P id calls = 0 → (∀ m ∈ calls, ¬m.call.Spoils id) → T.status = S.status

theorem Since.refl {P : Problem α} {id : Nat} (S : Solver P) : Since P id [] S S where
  id_eq := rfl
  generation_eq := rfl
  same _ := ⟨rfl, rfl, rfl⟩
  spoilt _ h := by
    obtain ⟨m, hm, -⟩ := h
    cases hm
  unspoilt _ _ := rfl

/-- A call that has nothing to do with the solver. -/
theorem Since.other {P : Problem α} {id : Nat} {m : Moment α} (S : Solver P)
    (restarts : ¬m.call.Restarts P id) (spoils : ¬m.call.Spoils id) : Since P id [m] S S where
  id_eq := rfl
  generation_eq := by rw [restarts_cons_of_not restarts]; rfl
  same _ := ⟨rfl, rfl, rfl⟩
  spoilt _ h := by
    obtain ⟨m', hm, h⟩ := h
    obtain rfl := List.mem_singleton.mp hm
    exact absurd h spoils
  unspoilt _ _ := rfl

theorem Since.trans {P : Problem α} {id : Nat} {m : Moment α} {calls : List (Moment α)}
    {S T U : Solver P} (h : Since P id calls S T) (h' : Since P id [m] T U) :
    Since P id (m :: calls) S U := by
  have hcount := restarts_cons P id m calls
  constructor
  · exact h'.id_eq.trans h.id_eq
  · rw [h'.generation_eq, h.generation_eq, hcount]
    omega
  · intro hzero
    exact (h.same (by omega)).trans (h'.same (by omega))
  · rintro hzero ⟨m', hm, hspoils⟩
    by_cases hlast : m.call.Spoils id
    · exact h'.spoilt (by omega) ⟨m, List.mem_singleton_self m, hlast⟩
    · rcases List.mem_cons.mp hm with rfl | hm
      · exact absurd hspoils hlast
      rw [h'.unspoilt (by omega), h.spoilt (by omega) ⟨m', hm, hspoils⟩]
      intro m' hm'
      rwa [List.mem_singleton.mp hm']
  · intro hzero hnone
    rw [h'.unspoilt (by omega), h.unspoilt (by omega)]
    · exact fun m' hm' => hnone m' (List.mem_cons_of_mem m hm')
    · intro m' hm'
      rw [List.mem_singleton.mp hm']
      exact hnone m List.mem_cons_self

section

variable [Scalar α] {s t : Session α} {P : Problem α} {S : Solver P} {id : Nat}

/-- A factorization of a session is one of the solver, which takes its place again. -/
theorem factor_eq {j : Fin s.solvers.size} (hS : s.solvers[j.val]? = some ⟨P, S⟩) (W : Scaling α)
    (H Df : Option (Matrix α)) :
    s.factor j W H Df = (fun inner => ⟨inner.answer,
      ⟨s.solvers.set j ⟨P, inner.state⟩ j.isLt⟩, inner.events⟩) <$> S.factor W H Df := by
  have hmine : s.solvers[j] = ⟨P, S⟩ := (Array.getElem?_eq_some_iff.mp hS).2
  unfold factor
  rw [hmine]
  rfl

theorem factor_eq_ok {j : Fin s.solvers.size} {W : Scaling α} {H Df : Option (Matrix α)}
    {out : Outcome (Handle α) (Session α)} (hS : s.solvers[j.val]? = some ⟨P, S⟩)
    (done : s.factor j W H Df = .ok out) :
    ∃ inner, S.factor W H Df = .ok inner ∧
      out = ⟨inner.answer, ⟨s.solvers.set j ⟨P, inner.state⟩ j.isLt⟩, inner.events⟩ := by
  rw [factor_eq hS, Checked.map_eq_ok] at done
  obtain ⟨inner, hinner, rfl⟩ := done
  exact ⟨inner, hinner, rfl⟩

theorem factor_of_solver {j : Fin s.solvers.size} {W : Scaling α} {H Df : Option (Matrix α)}
    {inner : Outcome (Handle α) (Solver P)} (hS : s.solvers[j.val]? = some ⟨P, S⟩)
    (done : S.factor W H Df = .ok inner) :
    s.factor j W H Df =
      .ok ⟨inner.answer, ⟨s.solvers.set j ⟨P, inner.state⟩ j.isLt⟩, inner.events⟩ := by
  rw [factor_eq hS, done, Checked.map_ok]

/-- The inertia that a session gives is that of the solver. -/
theorem inertia_of_solver {j : Fin s.solvers.size} (hS : s.solvers[j.val]? = some ⟨P, S⟩) :
    s.inertia j = S.inertia := by
  have hmine : s.solvers[j] = ⟨P, S⟩ := (Array.getElem?_eq_some_iff.mp hS).2
  unfold inertia
  rw [hmine]

/-- A solve of a session is one of the solver, which takes its place again. -/
theorem solve_eq {j : Fin s.solvers.size} (hS : s.solvers[j.val]? = some ⟨P, S⟩)
    (handle : Handle α) (rhs : Rhs α) :
    s.solve j handle rhs = (fun inner => ⟨inner.answer,
      (⟨s.solvers.set j ⟨P, inner.state.1⟩ j.isLt⟩, inner.state.2), inner.events⟩) <$>
        S.solve handle rhs := by
  have hmine : s.solvers[j] = ⟨P, S⟩ := (Array.getElem?_eq_some_iff.mp hS).2
  unfold solve
  rw [hmine]
  rfl

theorem solve_eq_ok {j : Fin s.solvers.size} {handle : Handle α} {rhs : Rhs α}
    {out : Outcome Unit (Session α × Rhs α)} (hS : s.solvers[j.val]? = some ⟨P, S⟩)
    (done : s.solve j handle rhs = .ok out) :
    ∃ inner, S.solve handle rhs = .ok inner ∧
      out = ⟨inner.answer, (⟨s.solvers.set j ⟨P, inner.state.1⟩ j.isLt⟩, inner.state.2),
        inner.events⟩ := by
  rw [solve_eq hS, Checked.map_eq_ok] at done
  obtain ⟨inner, hinner, rfl⟩ := done
  exact ⟨inner, hinner, rfl⟩

theorem solve_of_solver {j : Fin s.solvers.size} {handle : Handle α} {rhs : Rhs α}
    {inner : Outcome Unit (Solver P × Rhs α)} (hS : s.solvers[j.val]? = some ⟨P, S⟩)
    (done : S.solve handle rhs = .ok inner) :
    s.solve j handle rhs = .ok ⟨inner.answer,
      (⟨s.solvers.set j ⟨P, inner.state.1⟩ j.isLt⟩, inner.state.2), inner.events⟩ := by
  rw [solve_eq hS, done, Checked.map_ok]

/-- A factorization with the solver itself. -/
theorem since_factor {W : Scaling α} {H Df : Option (Matrix α)}
    {out : Outcome (Handle α) (Solver P)} (done : S.factor W H Df = .ok out) (t : Session α) :
    Since P id [⟨.factor id W H Df out.answer, t⟩] S out.state := by
  cases hchecked : P.checkInputs W H Df with
  | error e =>
    have hrestarts : ¬(Call.factor id W H Df out.answer).Restarts P id := by
      rintro ⟨-, h⟩
      cases hchecked.symm.trans h
    rw [Solver.factor_of_refused S hchecked] at done
    cases done
    exact .other S hrestarts not_false
  | ok u =>
    have hrestarts : (Call.factor id W H Df out.answer).Restarts P id := ⟨rfl, hchecked⟩
    obtain ⟨hid, hgeneration, -⟩ := Solver.factor_of_checked hchecked done
    have hcount : restarts P id [⟨.factor id W H Df out.answer, t⟩] = 1 :=
      restarts_cons_of_restarts hrestarts []
    constructor
    · exact hid
    · rw [hgeneration, hcount]
    all_goals
      intro hzero
      omega

/-- A solve with the solver itself. -/
theorem since_solve {handle : Handle α} {rhs : Rhs α} {out : Outcome Unit (Solver P × Rhs α)}
    (done : S.solve handle rhs = .ok out) (t : Session α) :
    Since P id [⟨.solve id handle rhs out.answer, t⟩] S out.state.1 := by
  obtain ⟨hid, hgeneration, hsame, hstatus⟩ := Solver.solve_keeps done
  have hrestarts : ¬(Call.solve id handle rhs out.answer).Restarts P id := not_false
  have hcount : restarts P id [⟨.solve id handle rhs out.answer, t⟩] = 0 :=
    restarts_cons_of_not hrestarts []
  constructor
  · exact hid
  · rw [hgeneration, hcount]
    rfl
  · intro _
    exact hsame
  · rintro _ ⟨m, hm, hspoils⟩
    obtain rfl := List.mem_singleton.mp hm
    rcases hstatus with ⟨-, hfailed⟩ | ⟨hanswer, -⟩
    · exact hfailed
    · exact absurd hspoils.2 hanswer
  · intro _ hnone
    rcases hstatus with ⟨hanswer, -⟩ | ⟨-, hstatus⟩
    · exact absurd ⟨rfl, hanswer⟩ (hnone _ (List.mem_singleton_self _))
    · exact hstatus

/-- What one call does to a solver that exists already: nothing, a factorization, or a solve. -/
inductive Fate (S : Solver P) (id : Nat) : Call α → Solver P → Prop
  | kept {call : Call α} (restarts : ¬call.Restarts P id) (spoils : ¬call.Spoils id) :
      Fate S id call S
  | factored {W : Scaling α} {H Df : Option (Matrix α)} {out : Outcome (Handle α) (Solver P)}
      (done : S.factor W H Df = .ok out) : Fate S id (.factor id W H Df out.answer) out.state
  | solved {handle : Handle α} {rhs : Rhs α} {out : Outcome Unit (Solver P × Rhs α)}
      (done : S.solve handle rhs = .ok out) :
      Fate S id (.solve id handle rhs out.answer) out.state.1

theorem Step.fate {call : Call α} (step : Step s call t) (hS : s.solvers[id]? = some ⟨P, S⟩) :
    ∃ T : Solver P, t.solvers[id]? = some ⟨P, T⟩ ∧ Fate S id call T := by
  cases step with
  | create done =>
    simp only [Session.create, Checked.bind_eq_ok] at done
    obtain ⟨made, -, done⟩ := done
    cases made with
    | error e =>
      cases done
      exact ⟨S, hS, .kept not_false not_false⟩
    | ok Q =>
      simp only [Checked.bind_eq_ok] at done
      obtain ⟨solver, -, done⟩ := done
      cases done
      refine ⟨S, ?_, .kept not_false not_false⟩
      have hlt : id < s.solvers.size := (Array.getElem?_eq_some_iff.mp hS).1
      rw [Array.getElem?_push_lt hlt, ← hS, Array.getElem?_eq_getElem hlt]
  | @factor j W H Df out done =>
    by_cases hj : j.val = id
    · obtain rfl := hj
      obtain ⟨inner, hinner, rfl⟩ := factor_eq_ok hS done
      exact ⟨inner.state, by rw [Array.getElem?_set, if_pos rfl], .factored hinner⟩
    · refine ⟨S, ?_, .kept (fun h => hj h.1) not_false⟩
      obtain ⟨inner, -, done⟩ := Checked.bind_eq_ok.mp done
      cases done
      rw [Array.getElem?_set, if_neg hj, hS]
  | @solve j handle rhs out done =>
    by_cases hj : j.val = id
    · obtain rfl := hj
      obtain ⟨inner, hinner, rfl⟩ := solve_eq_ok hS done
      exact ⟨inner.state.1, by rw [Array.getElem?_set, if_pos rfl], .solved hinner⟩
    · refine ⟨S, ?_, .kept not_false (fun h => hj h.1)⟩
      obtain ⟨inner, -, done⟩ := Checked.bind_eq_ok.mp done
      cases done
      rw [Array.getElem?_set, if_neg hj, hS]

/-- One call, seen from a solver that exists already. -/
theorem Step.since {call : Call α} (step : Step s call t) (hS : s.solvers[id]? = some ⟨P, S⟩) :
    ∃ T : Solver P, t.solvers[id]? = some ⟨P, T⟩ ∧ Since P id [⟨call, t⟩] S T := by
  obtain ⟨T, hT, hfate⟩ := step.fate hS
  refine ⟨T, hT, ?_⟩
  cases hfate with
  | kept restarts spoils => exact .other S restarts spoils
  | factored done => exact since_factor done t
  | solved done => exact since_solve done t

/-! ### Whole runs -/

theorem Run.after_eq {m : Moment α} {history : List (Moment α)} (run : Run (m :: history) s) :
    m.after = s := by
  cases run with
  | next earlier step => rfl

/-- All calls after a moment, seen from a solver that existed then. -/
theorem Run.since {later earlier : List (Moment α)} {m : Moment α}
    (run : Run (later ++ m :: earlier) s) (hS : m.after.solvers[id]? = some ⟨P, S⟩) :
    ∃ T : Solver P, s.solvers[id]? = some ⟨P, T⟩ ∧ Since P id later S T := by
  induction later generalizing s with
  | nil =>
    obtain rfl := run.after_eq
    exact ⟨S, hS, .refl S⟩
  | cons last later ih =>
    cases run with
    | next earlier step =>
      obtain ⟨T, hT, hsince⟩ := ih earlier
      obtain ⟨U, hU, hlast⟩ := step.since hT
      exact ⟨U, hU, hsince.trans hlast⟩

theorem Run.of_append {later earlier : List (Moment α)} (run : Run (later ++ earlier) s) :
    ∃ t, Run earlier t := by
  induction later generalizing s with
  | nil => exact ⟨s, run⟩
  | cons last later ih =>
    cases run with
    | next earlier step => exact ih earlier

/-- A solver keeps its place. -/
theorem Step.size_le {call : Call α} (step : Step s call t) : s.solvers.size ≤ t.solvers.size := by
  by_contra hlt
  have hmem : t.solvers.size < s.solvers.size := Nat.lt_of_not_le hlt
  obtain ⟨T, hT, -⟩ := step.since (P := s.solvers[t.solvers.size].problem)
    (S := s.solvers[t.solvers.size].solver) (Array.getElem?_eq_getElem hmem)
  rw [Array.getElem?_eq_none (Nat.le_refl _)] at hT
  cases hT

/-- Only solvers that exist are called. -/
theorem Run.restarts_eq_zero {history : List (Moment α)} (run : Run history s) (P : Problem α)
    (hid : s.solvers.size ≤ id) : restarts P id history = 0 := by
  induction run with
  | start => rfl
  | @next history s t call earlier step ih =>
    rw [restarts_cons_of_not, ih (Nat.le_trans step.size_le hid)]
    intro h
    cases step with
    | create => exact h
    | factor j => exact absurd h.1 (Nat.ne_of_lt (Nat.lt_of_lt_of_le j.isLt
        (Nat.le_trans (Step.factor j ‹_›).size_le hid)))
    | solve => exact h

/-- A solver that a call finds nowhere is made by it, for a problem that was made with it. -/
theorem Step.made_new {call : Call α} (step : Step s call t) (hid : s.solvers.size ≤ id)
    (hS : t.solvers[id]? = some ⟨P, S⟩) :
    (∃ G dims A mnl settings, Problem.new G dims A mnl settings = .ok (.ok P)) ∧
      Solver.new P id = .ok S ∧ ¬call.Restarts P id := by
  have hlt : id < t.solvers.size := (Array.getElem?_eq_some_iff.mp hS).1
  cases step with
  | create done =>
    simp only [Session.create, Checked.bind_eq_ok] at done
    obtain ⟨made, hmade, done⟩ := done
    cases made with
    | error e =>
      cases done
      exact absurd hlt (Nat.not_lt.mpr hid)
    | ok Q =>
      simp only [Checked.bind_eq_ok] at done
      obtain ⟨solver, hsolver, done⟩ := done
      cases done
      rw [Array.size_push] at hlt
      obtain rfl : id = s.solvers.size := by omega
      rw [Array.getElem?_push_size] at hS
      cases hS
      exact ⟨⟨_, _, _, _, _, hmade⟩, hsolver, not_false⟩
  | factor j done =>
    obtain ⟨inner, -, done⟩ := Checked.bind_eq_ok.mp done
    cases done
    rw [Array.size_set] at hlt
    omega
  | solve j done =>
    obtain ⟨inner, -, done⟩ := Checked.bind_eq_ok.mp done
    cases done
    rw [Array.size_set] at hlt
    omega

/-- What holds of every new solver and stays with its calls holds of every solver in a run. -/
theorem Run.invariant (I : ∀ P : Problem α, Solver P → Prop) {history : List (Moment α)}
    (run : Run history s)
    (new : ∀ {P S}, (∃ G dims A mnl settings, Problem.new G dims A mnl settings = .ok (.ok P)) →
      Solver.new P id = .ok S → I P S)
    (factored : ∀ {P S W H Df out}, I P S → S.factor W H Df = .ok out → I P out.state)
    (solved : ∀ {P S handle rhs out}, I P S → S.solve handle rhs = .ok out → I P out.state.1)
    (hS : s.solvers[id]? = some ⟨P, S⟩) : I P S := by
  induction run generalizing P S with
  | start => cases hS
  | @next history s t call earlier step ih =>
    by_cases hid : s.solvers.size ≤ id
    · obtain ⟨hproblem, hsolver, -⟩ := step.made_new hid hS
      exact new hproblem hsolver
    · have hlt : id < s.solvers.size := Nat.lt_of_not_le hid
      obtain ⟨⟨Q, R⟩, hR⟩ : ∃ X, s.solvers[id]? = some X := ⟨_, Array.getElem?_eq_getElem hlt⟩
      obtain ⟨T, hT, hfate⟩ := step.fate hR
      cases hT.symm.trans hS
      cases hfate with
      | kept => exact ih hR
      | factored done => exact factored (ih hR) done
      | solved done => exact solved (ih hR) done

/-- Every solver is known by its place, and its generation counts the calls that passed their
dimension checks. -/
theorem Run.standing {history : List (Moment α)} (run : Run history s)
    (hS : s.solvers[id]? = some ⟨P, S⟩) : S.id = id ∧ S.generation = restarts P id history := by
  induction run generalizing P S with
  | start => cases hS
  | @next history s t call earlier step ih =>
    by_cases hid : s.solvers.size ≤ id
    · obtain ⟨-, hnew, hcall⟩ := step.made_new hid hS
      obtain ⟨hnumber, hgeneration, -⟩ := Solver.new_eq_ok hnew
      refine ⟨hnumber, ?_⟩
      rw [hgeneration, restarts_cons_of_not hcall, earlier.restarts_eq_zero P hid]
    · have hlt : id < s.solvers.size := Nat.lt_of_not_le hid
      obtain ⟨⟨Q, R⟩, hR⟩ : ∃ X, s.solvers[id]? = some X := ⟨_, Array.getElem?_eq_getElem hlt⟩
      obtain ⟨T, hT, hsince⟩ := step.since hR
      cases hT.symm.trans hS
      obtain ⟨hnumber, hgeneration⟩ := ih hR
      refine ⟨hsince.id_eq.trans hnumber, ?_⟩
      rw [hsince.generation_eq, hgeneration, restarts_cons P id _ history]
      exact Nat.add_comm _ _

/-- The last call was a factorization with a solver that existed already. -/
theorem Run.factored {earlier : List (Moment α)} {W : Scaling α} {H Df : Option (Matrix α)}
    {answer : Except KktError (Handle α)}
    (run : Run (⟨.factor id W H Df answer, t⟩ :: earlier) s) :
    ∃ (s₀ : Session α) (P : Problem α) (S : Solver P) (out : Outcome (Handle α) (Solver P)),
      Run earlier s₀ ∧ s₀.solvers[id]? = some ⟨P, S⟩ ∧ S.factor W H Df = .ok out ∧
        answer = out.answer ∧ t.solvers[id]? = some ⟨P, out.state⟩ := by
  cases run with
  | @next _ s₀ _ _ before step =>
  generalize hcall : Call.factor id W H Df answer = call at step
  cases step with
  | create => cases hcall
  | solve => cases hcall
  | @factor j W' H' Df' out done =>
    injection hcall with hid hW hH hDf hanswer
    subst hid hW hH hDf
    have hbefore := Array.getElem?_eq_getElem j.isLt
    obtain ⟨inner, hinner, rfl⟩ := factor_eq_ok hbefore done
    exact ⟨s₀, _, _, inner, before, hbefore, hinner, hanswer,
      by rw [Array.getElem?_set, if_pos rfl]⟩

/-- A factorization that answered with a handle, and the solver that it left. -/
theorem Run.issued {earlier : List (Moment α)} {W : Scaling α} {H Df : Option (Matrix α)}
    {handle : Handle α} (run : Run (⟨.factor id W H Df (.ok handle), t⟩ :: earlier) s) :
    ∃ (P : Problem α) (S : Solver P), t.solvers[id]? = some ⟨P, S⟩ ∧ S.status = .factored ∧
      handle = ⟨id, S.generation, W⟩ := by
  obtain ⟨s₀, P, S, out, before, hS, hout, hanswer, ht⟩ := run.factored
  have hchecked := Solver.checked_of_factor hout hanswer.symm
  obtain ⟨-, hgeneration, ⟨⟨e, he⟩, -⟩ | ⟨hissued, hstatus⟩⟩ :=
    Solver.factor_of_checked hchecked hout
  · cases hanswer.trans he
  · refine ⟨P, out.state, ht, hstatus, ?_⟩
    cases hanswer.trans hissued
    rw [(before.standing hS).1, hgeneration]

/-- Only the solver that issued a handle accepts it. -/
theorem Run.issuer_eq {later earlier : List (Moment α)} {j : Nat} {W : Scaling α}
    {H Df : Option (Matrix α)} {handle : Handle α}
    (run : Run (later ++ ⟨.factor j W H Df (.ok handle), t⟩ :: earlier) s)
    (hS : s.solvers[id]? = some ⟨P, S⟩) (accepted : S.checkHandle handle = .ok ()) : j = id := by
  by_contra hne
  obtain ⟨t', hrun⟩ := run.of_append
  obtain ⟨Q, T, -, -, hhandle⟩ := hrun.issued
  have hforeign : handle.solver ≠ S.id := by
    rw [hhandle, (run.standing hS).1]
    exact hne
  cases (Solver.checkHandle_foreign hforeign).symm.trans accepted

/-! ### The verdict on a handle -/

omit [Scalar α] in
/-- A solver that is put back as it was leaves the session as it is. -/
theorem set_solver {j : Fin s.solvers.size} (hS : s.solvers[j.val]? = some ⟨P, S⟩) :
    s.solvers.set j ⟨P, S⟩ j.isLt = s.solvers := by
  rw [← (Array.getElem?_eq_some_iff.mp hS).2]
  exact Array.set_getElem_self j.isLt

/-- A call that rejects a handle leaves the session as it is. -/
theorem solve_of_rejected {j : Fin s.solvers.size} {handle : Handle α} {e : KktError}
    {events : List Event} (hS : s.solvers[j.val]? = some ⟨P, S⟩)
    (rejected : S.checkHandle handle = .error (e, events)) (rhs : Rhs α) :
    s.solve j handle rhs = .ok ⟨.error e, (s, rhs), events⟩ := by
  rw [solve_of_solver hS (Solver.solve_of_rejected rejected rhs), set_solver hS]

section

variable {later : List (Moment α)} {T : Solver P} {handle : Handle α}

omit [Scalar α] in
/-- A later generation makes a handle stale. -/
theorem Since.stale (h : Since P id later S T) (hid : handle.solver = T.id)
    (hgeneration : handle.generation = S.generation)
    (restarted : ∃ m ∈ later, m.call.Restarts P id) :
    T.checkHandle handle = .error (.staleFactorization S.generation T.generation,
      [.stale S.generation T.generation]) := by
  have hne : S.generation ≠ T.generation := by
    intro heq
    have hzero : restarts P id later = 0 := by
      have := h.generation_eq
      omega
    obtain ⟨m, hm, hrestarts⟩ := restarted
    exact restarts_eq_zero.mp hzero m hm hrestarts
  rw [Solver.checkHandle_own hid, hgeneration, if_pos hne]

omit [Scalar α] in
/-- Without a later generation the status decides. -/
theorem Since.current (h : Since P id later S T) (hid : handle.solver = T.id)
    (hgeneration : handle.generation = S.generation)
    (continued : ∀ m ∈ later, ¬m.call.Restarts P id) :
    T.checkHandle handle = if T.status ≠ .factored then .error (.notFactored, []) else .ok () := by
  have heq : S.generation = T.generation := by
    rw [h.generation_eq, restarts_eq_zero.mpr continued]
    rfl
  rw [Solver.checkHandle_own hid, hgeneration, if_neg (not_not.mpr heq)]

omit [Scalar α] in
/-- The status is lost with a solution that is not finite. -/
theorem Since.notFactored (h : Since P id later S T) (hid : handle.solver = T.id)
    (hgeneration : handle.generation = S.generation)
    (continued : ∀ m ∈ later, ¬m.call.Restarts P id) (spoilt : ∃ m ∈ later, m.call.Spoils id) :
    T.checkHandle handle = .error (.notFactored, []) := by
  have hstatus : T.status ≠ .factored := by
    rw [h.spoilt (restarts_eq_zero.mpr continued) spoilt]
    nofun
  rw [h.current hid hgeneration continued, if_pos hstatus]

omit [Scalar α] in
/-- A handle is accepted exactly while it is of the current generation and no solution was not
finite. -/
theorem Since.accepted_iff (h : Since P id later S T) (hid : handle.solver = T.id)
    (hgeneration : handle.generation = S.generation) (hstatus : S.status = .factored) :
    T.checkHandle handle = .ok () ↔
      (∀ m ∈ later, ¬m.call.Restarts P id) ∧ ∀ m ∈ later, ¬m.call.Spoils id := by
  constructor
  · intro haccepted
    have hcontinued : ∀ m ∈ later, ¬m.call.Restarts P id := by
      intro m hm hrestarts
      rw [h.stale hid hgeneration ⟨m, hm, hrestarts⟩] at haccepted
      cases haccepted
    refine ⟨hcontinued, ?_⟩
    intro m hm hspoils
    rw [h.notFactored hid hgeneration hcontinued ⟨m, hm, hspoils⟩] at haccepted
    cases haccepted
  · rintro ⟨hcontinued, hunspoilt⟩
    rw [h.current hid hgeneration hcontinued,
      h.unspoilt (restarts_eq_zero.mpr hcontinued) hunspoilt, if_neg (not_not.mpr hstatus)]

end

/-- **The protocol of handles.**  A handle that some call in a run issued is accepted by a solver if
and only if that solver issued it, no later factorization with the solver passed its dimension
checks, and no solve since then found a solution that is not finite.  Otherwise it is refused: as
foreign, as stale with the numbers of factorizations that the two generations count, or because
there is no usable factorization.  An accepted handle holds the scaling that it was issued for, and
the matrix, its pivots and its copy are those that were left by the call that issued it. -/
theorem handle_protocol {later earlier : List (Moment α)} {j : Nat} {W : Scaling α}
    {H Df : Option (Matrix α)} {handle : Handle α}
    (run : Run (later ++ ⟨.factor j W H Df (.ok handle), t⟩ :: earlier) s)
    {id : Nat} (hid : id < s.solvers.size) :
    (s.solvers[id].solver.checkHandle handle = .ok () ↔
      j = id ∧ (∀ m ∈ later, ¬m.call.Restarts s.solvers[id].problem id) ∧
        ∀ m ∈ later, ¬m.call.Spoils id) ∧
    (j ≠ id → ∀ rhs, s.solve ⟨id, hid⟩ handle rhs =
      .ok ⟨.error .foreignFactorization, (s, rhs), [.foreign]⟩) ∧
    (j = id → (∃ m ∈ later, m.call.Restarts s.solvers[id].problem id) →
      let token := restarts s.solvers[id].problem id
        (⟨.factor j W H Df (.ok handle), t⟩ :: earlier)
      let current := restarts s.solvers[id].problem id
        (later ++ ⟨.factor j W H Df (.ok handle), t⟩ :: earlier)
      ∀ rhs, s.solve ⟨id, hid⟩ handle rhs =
        .ok ⟨.error (.staleFactorization token current), (s, rhs), [.stale token current]⟩) ∧
    (j = id → (∀ m ∈ later, ¬m.call.Restarts s.solvers[id].problem id) →
      (∃ m ∈ later, m.call.Spoils id) → ∀ rhs, s.solve ⟨id, hid⟩ handle rhs =
        .ok ⟨.error .notFactored, (s, rhs), []⟩) ∧
    (s.solvers[id].solver.checkHandle handle = .ok () → handle.scaling = W ∧
      ∃ S : Solver s.solvers[id].problem, t.solvers[id]? = some ⟨_, S⟩ ∧
        S.SameFactors s.solvers[id].solver) := by
  obtain ⟨t', hrun⟩ := run.of_append
  obtain ⟨P, S, hS, hstatus, hhandle⟩ := hrun.issued
  have hX : s.solvers[id]? = some s.solvers[id] := Array.getElem?_eq_getElem hid
  generalize s.solvers[id] = X at hX
  obtain ⟨Q, U⟩ := X
  obtain ⟨hnumber, hcurrent⟩ := run.standing hX
  have hsolver : handle.solver = j := by rw [hhandle]
  by_cases hj : j = id
  · subst hj
    -- the solver that is asked is the one that issued the handle, some calls later
    obtain ⟨T, hT, hsince⟩ := run.since hS
    cases hT.symm.trans hX
    have hown : handle.solver = T.id := hsolver.trans hnumber.symm
    have hgeneration : handle.generation = S.generation := by rw [hhandle]
    have hiff := hsince.accepted_iff hown hgeneration hstatus
    refine ⟨?_, ?_, ?_, ?_, ?_⟩
    · rw [hiff]
      exact ⟨fun h => ⟨rfl, h⟩, fun h => h.2⟩
    · intro h
      exact absurd rfl h
    · intro _ hrestarted token current rhs
      have hsum : current = restarts P j later + token := restarts_append P j later _
      have hcurrent : T.generation = current := hcurrent
      have htoken : S.generation = token := by
        have hlater := hsince.generation_eq
        omega
      rw [solve_of_rejected hX (hsince.stale hown hgeneration hrestarted), htoken, hcurrent]
    · intro _ hcontinued hspoilt rhs
      exact solve_of_rejected hX (hsince.notFactored hown hgeneration hcontinued hspoilt) rhs
    · intro haccepted
      refine ⟨by rw [hhandle], S, hS, hsince.same ?_⟩
      exact restarts_eq_zero.mpr (hiff.mp haccepted).1
  · have hforeign : handle.solver ≠ U.id := by
      rw [hsolver, hnumber]
      exact hj
    have hverdict := Solver.checkHandle_foreign hforeign
    refine ⟨?_, ?_, ?_, ?_, ?_⟩
    · constructor
      · intro haccepted
        cases hverdict.symm.trans haccepted
      · rintro ⟨h, -⟩
        exact absurd h hj
    · intro _ rhs
      exact solve_of_rejected hX hverdict rhs
    · intro h
      exact absurd h hj
    · intro h
      exact absurd h hj
    · intro haccepted
      cases hverdict.symm.trans haccepted

end

/-- A session with one solver, for one variable and no constraints. -/
def oneVariable : Checked (Outcome Nat (Session Float)) :=
  Session.empty.create ⟨0, 1, ⟨#v[]⟩⟩ .empty ⟨0, 1, ⟨#v[]⟩⟩ 0 ⟨"auto", false, 0, 0, 0, 0, true⟩

/-- Whether its solver has a handle for the Hessian `2`. -/
def oneFactorization : Checked Bool := do
  let made ← oneVariable
  if h : 0 < made.state.solvers.size then
    let factored ← made.state.factor ⟨0, h⟩ ⟨#[], #[], #[], #[], [], [], [], []⟩
      (some ⟨1, 1, ⟨#v[2]⟩⟩) none
    pure factored.answer.isOk
  else
    pure false

/-- A handle that was just issued is accepted. -/
theorem handle_protocol_issued :
    ∃ (s : Session Float) (id : Nat) (hid : id < s.solvers.size) (W : Scaling Float)
      (H Df : Option (Matrix Float)) (handle : Handle Float) (earlier : List (Moment Float)),
      Run (⟨.factor id W H Df (.ok handle), s⟩ :: earlier) s ∧
        s.solvers[id].solver.checkHandle handle = .ok () := by
  have hdone : oneFactorization = .ok true := by decide +kernel
  obtain ⟨made, hmade, hdone⟩ := Checked.bind_eq_ok.mp hdone
  by_cases h : 0 < made.state.solvers.size
  · rw [dif_pos h] at hdone
    obtain ⟨factored, hfactored, hdone⟩ := Checked.bind_eq_ok.mp hdone
    have step := Step.factor ⟨0, h⟩ hfactored
    have hid : 0 < factored.state.solvers.size := Nat.lt_of_lt_of_le h step.size_le
    have run := (Run.start.next (.create hmade)).next step
    cases hanswer : factored.answer with
    | error e =>
      rw [hanswer] at hdone
      cases hdone
    | ok handle =>
      rw [hanswer, ← List.nil_append (_ :: _)] at run
      exact ⟨_, 0, hid, _, _, _, handle, _, run,
        (handle_protocol run hid).1.mpr ⟨rfl, nofun, nofun⟩⟩
  · rw [dif_neg h] at hdone
    cases hdone

end ConicSaddle.Session
