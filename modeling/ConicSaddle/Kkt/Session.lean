import ConicSaddle.Kkt.Factor
import ConicSaddle.Kkt.Solve

/-!
# Sessions

Several solvers side by side.  A solver is known by its number, which it also puts into the handles
that it hands out, so that a handle is of use with its own solver only.

* `Session`: the solvers made so far;
* `Session.create`, `Session.factor`, `Session.inertia`, `Session.solve`: the calls of one of them.
-/

namespace ConicSaddle

/-- A problem with a solver. -/
structure AnySolver (α : Type) where
  problem : Problem α
  solver : Solver problem

/-- The solvers made so far, each at the place of its number. -/
structure Session (α : Type) where
  solvers : Array (AnySolver α)

namespace Session

variable {α : Type} [Scalar α]

/-- No solvers. -/
def empty : Session α := ⟨#[]⟩

/-- A new solver, known by the number in the answer. -/
def create (s : Session α) (G : Matrix α) (dims : ConeDims) (A : Matrix α) (mnl : Nat)
    (settings : Settings α) : Checked (Outcome Nat (Session α)) := do
  match ← Problem.new G dims A mnl settings with
  | .error e => pure ⟨.error e, s, []⟩
  | .ok P =>
    let id := s.solvers.size
    let solver ← Solver.new P id
    pure ⟨.ok id, ⟨s.solvers.push ⟨P, solver⟩⟩, [Solver.created P]⟩

/-- A factorization with one of the solvers. -/
def factor (s : Session α) (id : Fin s.solvers.size) (W : Scaling α) (H Df : Option (Matrix α)) :
    Checked (Outcome (Handle α) (Session α)) := do
  let S := s.solvers[id]
  let done ← S.solver.factor W H Df
  pure ⟨done.answer, ⟨s.solvers.set id ⟨S.problem, done.state⟩⟩, done.events⟩

/-- The inertia of the matrix that one of the solvers holds, if it is factored. -/
def inertia (s : Session α) (id : Fin s.solvers.size) : Checked (Option Inertia) :=
  s.solvers[id].solver.inertia

/-- A solution with one of the solvers. -/
def solve (s : Session α) (id : Fin s.solvers.size) (handle : Handle α) (rhs : Rhs α) :
    Checked (Outcome Unit (Session α × Rhs α)) := do
  let S := s.solvers[id]
  let done ← S.solver.solve handle rhs
  pure ⟨done.answer, (⟨s.solvers.set id ⟨S.problem, done.state.1⟩⟩, done.state.2), done.events⟩

end Session

end ConicSaddle
