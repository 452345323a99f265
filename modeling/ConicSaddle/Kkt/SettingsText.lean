import ConicSaddle.Json.Reader
import ConicSaddle.Json.Record
import ConicSaddle.Json.Writer
import ConicSaddle.Kkt.Settings
import ConicSaddle.Number.Shortest

/-!
# Settings as text

Settings are a JSON record.  A field that is missing has its standard value, and the method is not
judged.  Numbers are written with the fewest digits, and numbers that are not finite as `null`.

* `Settings.text`: the text of settings;
* `Settings.ofText?`: the settings that a text holds.
-/

namespace ConicSaddle.Settings

variable {α : Type} [FloatFormat α]

/-- The names of the fields. -/
def fieldNames : List String :=
  ["direct_solve_method", "iterative_refinement_enable", "iterative_refinement_reltol",
    "iterative_refinement_abstol", "iterative_refinement_max_iter",
    "iterative_refinement_stop_ratio", "check_finite"]

/-- Where the decimal point may stand without a power of ten being written. -/
def positional : BinaryLayout → Shortest.PositionalRange
  | ⟨8, 23⟩ => ⟨-5, 13⟩
  | _ => ⟨-4, 16⟩

/-- A number. -/
def numberText (x : α) : String :=
  match FloatFormat.decode x with
  | .finite negative mantissa exponent =>
    let layout := FloatFormat.layout α
    Shortest.render layout (positional layout) negative mantissa exponent
  | _ => "null"

/-- A truth value. -/
def boolText (b : Bool) : String := String.ofList (Json.bool b).render

/-- The texts of the fields. -/
def fieldTexts (settings : Settings α) : List String :=
  [String.ofList (Json.quote settings.method), boolText settings.refine,
    numberText settings.reltol, numberText settings.abstol,
    Decimal.natText settings.maxSteps, numberText settings.stopRatio,
    boolText settings.checkFinite]

/-- The text of settings. -/
def text (settings : Settings α) : String :=
  let members := fieldNames.zipWith (fun name value =>
    String.ofList (Json.quote name) ++ ":" ++ value) settings.fieldTexts
  "\x7b" ++ ",".intercalate members ++ "\x7d"

/-- A value that is there is read, and a value that is missing is the standard one. -/
def orStandard {β : Type} (read : Json → Option β) (standard : β) : Option Json → Option β
  | some value => read value
  | none => some standard

/-- The settings that a text holds. -/
def ofText? (text : String) : Option (Settings α) := do
  let json ← Json.read text
  let standard : Settings α := .standard
  match ← json.fields? fieldNames with
  | [method, refine, reltol, abstol, maxSteps, stopRatio, checkFinite] =>
    pure {
      method := ← orStandard Json.toText? standard.method method
      refine := ← orStandard Json.toBool? standard.refine refine
      reltol := ← orStandard Json.toScalar? standard.reltol reltol
      abstol := ← orStandard Json.toScalar? standard.abstol abstol
      maxSteps := ← orStandard (Json.toNat? 0x100000000) standard.maxSteps maxSteps
      stopRatio := ← orStandard Json.toScalar? standard.stopRatio stopRatio
      checkFinite := ← orStandard Json.toBool? standard.checkFinite checkFinite }
  | _ => none

end ConicSaddle.Settings
