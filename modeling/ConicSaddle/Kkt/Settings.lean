import ConicSaddle.Number.Format

/-!
# Settings

What a solver can be told: which factorization to use, whether and how to refine solutions, and
whether to reject solutions that are not finite.

* `Settings`: all values;
* `Settings.validate`, `Settings.backend`: whether the factorization named by the method exists;
* `SettingsChange`: values for some of the fields, to be applied with or without validation.
-/

namespace ConicSaddle

/-- An implementation of the factorization. -/
inductive Backend
  /-- The factorization of this library. -/
  | native
  deriving DecidableEq, Repr

/-- The name of an implementation. -/
def Backend.name : Backend → String
  | .native => "Native"

/-- Why settings were refused. -/
inductive SettingsError
  /-- A field has a value that means nothing. -/
  | badFieldValue (field : String)
  /-- A factorization cannot be had. -/
  | linearSolverProblem (solver problem : String)
  deriving DecidableEq, Repr

/-- The wording of the error. -/
def SettingsError.message : SettingsError → String
  | .badFieldValue field => "Bad value for field \"" ++ field ++ "\""
  | .linearSolverProblem solver problem =>
    "Problem with " ++ solver ++ " solver (" ++ problem ++ ")"

/-- What a solver can be told. -/
structure Settings (α : Type) where
  /-- The factorization to use: `auto`, `native` or `lapack`. -/
  method : String
  /-- Solutions are refined. -/
  refine : Bool
  /-- Refinement ends at a residual of this size relative to the right hand side. -/
  reltol : α
  /-- Refinement ends at a residual of this size. -/
  abstol : α
  /-- Refinement ends after this many steps. -/
  maxSteps : Nat
  /-- Refinement ends when the residual shrinks by less than this factor. -/
  stopRatio : α
  /-- Solutions that are not finite are rejected. -/
  checkFinite : Bool

/-- The factorization that a method names. -/
def backendOf : String → Except SettingsError Backend
  | "auto" => .ok .native
  | "native" => .ok .native
  | "lapack" =>
    .error (.linearSolverProblem "lapack" "not compiled with the \"lapack\" feature")
  | _ => .error (.badFieldValue "direct_solve_method")

namespace Settings

variable {α : Type}

/-- The settings of a solver that is told nothing. -/
def standard [FloatFormat α] : Settings α where
  method := "auto"
  refine := false
  reltol := FloatFormat.ofDouble 1e-13
  abstol := FloatFormat.ofDouble 1e-12
  maxSteps := 10
  stopRatio := FloatFormat.ofDouble 5.0
  checkFinite := true

/-- The factorization that the settings ask for. -/
def backend (settings : Settings α) : Except SettingsError Backend := backendOf settings.method

/-- The factorization that the settings ask for exists.  Numbers are not judged. -/
def validate (settings : Settings α) : Except SettingsError Unit :=
  (backendOf settings.method).map fun _ => ()

/-- Equal in every field. -/
def equal [Scalar α] (a b : Settings α) : Bool :=
  a.method == b.method && a.refine == b.refine && Scalar.same a.reltol b.reltol &&
    Scalar.same a.abstol b.abstol && a.maxSteps == b.maxSteps &&
    Scalar.same a.stopRatio b.stopRatio && a.checkFinite == b.checkFinite

end Settings

/-- Values for some of the fields. -/
structure SettingsChange (α : Type) where
  method : Option String := none
  refine : Option Bool := none
  reltol : Option α := none
  abstol : Option α := none
  maxSteps : Option Nat := none
  stopRatio : Option α := none
  checkFinite : Option Bool := none

namespace SettingsChange

variable {α : Type}

/-- The standard settings with the changed fields. -/
def settings [FloatFormat α] (change : SettingsChange α) : Settings α :=
  let standard : Settings α := .standard
  { method := change.method.getD standard.method
    refine := change.refine.getD standard.refine
    reltol := change.reltol.getD standard.reltol
    abstol := change.abstol.getD standard.abstol
    maxSteps := change.maxSteps.getD standard.maxSteps
    stopRatio := change.stopRatio.getD standard.stopRatio
    checkFinite := change.checkFinite.getD standard.checkFinite }

/-- The method, if it is changed, names a factorization that exists. -/
def validate (change : SettingsChange α) : Except SettingsError Unit :=
  match change.method with
  | some method => (backendOf method).map fun _ => ()
  | none => .ok ()

/-- The changed settings, if they are valid. -/
def build [FloatFormat α] (change : SettingsChange α) : Except SettingsError (Settings α) :=
  change.validate.map fun _ => change.settings

end SettingsChange

end ConicSaddle
