import ConicSaddle.Kkt.Settings
import ConicSaddle.Ldl.Error
import ConicSaddle.Ldl.Inertia

/-!
# Log events

What a solver reports while it works.

* `Event`: the events;
* `Event.level`, `Event.message`: how they are logged.
-/

namespace ConicSaddle

/-- How much a log message matters. -/
inductive Level
  | trace
  | debug
  | warn
  deriving DecidableEq, Repr

/-- The name of a level. -/
def Level.name : Level → String
  | .trace => "TRACE"
  | .debug => "DEBUG"
  | .warn => "WARN"

/-- Something that a solver reports. -/
inductive Event
  /-- A solver was made. -/
  | created (n p mnl order : Nat) (backend : Backend)
  /-- A matrix is being assembled. -/
  | factoring (generation order : Nat)
  /-- A factorization ended in an error. -/
  | factorizationFailed (error : FactorizationError)
  /-- A factorization has this inertia. -/
  | factored (inertia : Inertia)
  /-- A system is being solved. -/
  | solving (generation : Nat)
  /-- A handle of an earlier factorization was used. -/
  | stale (token current : Nat)
  /-- A handle of another solver was used. -/
  | foreign
  /-- Refinement reached its tolerance. -/
  | converged (steps : Nat)
  /-- A solution is not finite. -/
  | nonFinite
  deriving DecidableEq, Repr

namespace Event

/-- How much the event matters. -/
def level : Event → Level
  | created .. => .debug
  | factoring .. => .debug
  | factorizationFailed _ => .warn
  | factored _ => .trace
  | solving _ => .debug
  | stale .. => .warn
  | foreign => .warn
  | converged _ => .trace
  | nonFinite => .warn

/-- The logged message. -/
def message : Event → String
  | created n p mnl order backend =>
    s!"KKT solver: n = {n}, p = {p}, mnl = {mnl}, ldK = {order}, backend = {backend.name}"
  | factoring generation order => s!"factor: generation {generation}, ldK = {order}"
  | factorizationFailed error => "KKT factorization failed: " ++ error.message
  | factored inertia =>
    s!"factor: inertia Inertia \x7b positive: {inertia.positive}, " ++
      s!"negative: {inertia.negative}, zero: {inertia.zero} \x7d"
  | solving generation => s!"solve: generation {generation}"
  | stale token current => s!"solve: stale factorization (generation {token} of {current})"
  | foreign => "solve: factorization was issued by another solver"
  | converged steps => s!"refinement: converged after {steps} steps"
  | nonFinite => "KKT solve produced a non-finite result"

end Event

end ConicSaddle
