import ConicSaddle.Cone.Packing
import ConicSaddle.Kkt.Refinement
import ConicSaddle.Kkt.Solver
import ConicSaddle.Scaling.Apply

/-!
# Solving

A right hand side is answered with a handle of the current factorization.

* `Solver.checkHandle`: the handle is of this solver's current factorization;
* `Solver.load`: the right hand side scaled and packed;
* `Solver.solvePacked`: the packed system solved, and the solution refined or judged;
* `Solver.solve`: the whole call.

The right hand side is replaced by the solution at the end of a call that succeeds.
-/

namespace ConicSaddle.Solver

variable {α : Type} [Scalar α] {P : Problem α}

/-- The handle is of this solver, of its current generation, and the factorization is usable. -/
def checkHandle (S : Solver P) (handle : Handle α) : Except (KktError × List Event) Unit :=
  if handle.solver ≠ S.id then
    .error (.foreignFactorization, [.foreign])
  else if handle.generation ≠ S.generation then
    .error (.staleFactorization handle.generation S.generation,
      [.stale handle.generation S.generation])
  else if S.status ≠ .factored then
    .error (.notFactored, [])
  else
    .ok ()

/-- The right hand side written over `u`, its last part scaled and packed. -/
def load (S : Solver P) (W : Scaling α) (rhs : Rhs α) :
    Checked (Reply DimensionError Unit (Solver P)) := do
  let u ← splice S.u 0 rhs.x
  let u ← splice u P.vars rhs.y
  let g ← sized rhs.z P.rows
  let scaled ← W.scale g P.dims P.mnl ⟨true, true⟩ S.workspace
  let S := { S with u := u, g := scaled.state.1, workspace := scaled.state.2 }
  match scaled.answer with
  | .error e => pure ⟨.error e, S⟩
  | .ok () =>
    let packed ← pack S.g.toArray S.u P.dims P.mnl (P.vars + P.eqs)
    pure ⟨packed.answer, { S with u := packed.state }⟩

/-- What refinement works with in a solver whose right hand side is in `b`. -/
def refinement (S : Solver P) : Refinement P.order α where
  factors := S.K
  record := S.record
  matrix := S.copy
  rhs := S.b
  reltol := P.settings.reltol
  abstol := P.settings.abstol
  stopRatio := P.settings.stopRatio

/-- The right hand side in `u` replaced by the solution, and whether that is accepted. -/
def solvePacked (S : Solver P) : Checked (Bool × Solver P × List Event) := do
  let b := if P.settings.refine then S.u else S.b
  let u ← Ldl.solveGrid S.K S.record S.u
  let S := { S with u := u, b := b }
  if P.settings.refine then
    let refined ← S.refinement.run P.settings.maxSteps u S.candidate
    let S := { S with
      u := refined.trial.solution
      residual := refined.trial.residual
      candidate := refined.trial.candidate }
    pure (refined.accepted, S, refined.events)
  else
    pure (!P.settings.checkFinite || Vec.isFinite u.toArray, S, [])

/-- The solution in `u` as the three parts that the right hand side had. -/
def unload (S : Solver P) (rhs : Rhs α) : Checked (Reply DimensionError Unit (Rhs α)) := do
  let x ← slice S.u.toArray 0 P.vars
  let y ← slice S.u.toArray P.vars P.eqs
  let unpacked ← unpack S.u.toArray (⟨rhs.z, rfl⟩ : Vector α rhs.z.size) P.dims P.mnl
    (P.vars + P.eqs)
  pure ⟨unpacked.answer, ⟨x.toArray, y.toArray, unpacked.state.toArray⟩⟩

/-- The right hand side replaced by the solution of the system.  A solution that is not accepted
makes the factorization unusable. -/
def solve (S : Solver P) (handle : Handle α) (rhs : Rhs α) :
    Checked (Outcome Unit (Solver P × Rhs α)) :=
  match S.checkHandle handle with
  | .error (e, events) => pure ⟨.error e, (S, rhs), events⟩
  | .ok () =>
    match P.checkRhs rhs with
    | .error e => pure ⟨.error (.dimension e), (S, rhs), []⟩
    | .ok () => do
      let started := Event.solving S.generation
      let loaded ← S.load handle.scaling rhs
      let S := loaded.state
      match loaded.answer with
      | .error e => pure ⟨.error (.dimension e), (S, rhs), [started]⟩
      | .ok () =>
        let (accepted, S, events) ← S.solvePacked
        if accepted then
          let unloaded ← S.unload rhs
          pure ⟨unloaded.answer.mapError .dimension, (S, unloaded.state), started :: events⟩
        else
          pure ⟨.error .nonFiniteSolution, ({ S with status := .failed }, rhs),
            started :: (events ++ [.nonFinite])⟩

end ConicSaddle.Solver
