import ConicSaddle.Cone.Dims
import ConicSaddle.Json.Reader
import ConicSaddle.Json.Record
import ConicSaddle.Json.Writer

/-!
# Cone descriptors as text

A descriptor is a JSON record of its dimensions.  What is read is checked like any other
descriptor.

* `ConeDims.text`: the text of a descriptor;
* `ConeDims.rawOfText?`: the three dimensions that a text holds;
* `ConeDims.ofText?`: the descriptor with these dimensions, if they are those of one.
-/

namespace ConicSaddle.ConeDims

/-- The names of the fields. -/
def fieldNames : List String := ["l", "q", "s"]

/-- The record of a descriptor. -/
def toJson (dims : ConeDims) : Json :=
  .object [(some "l", .ofNat dims.l), (some "q", .array (dims.q.map .ofNat)),
    (some "s", .array (dims.s.map .ofNat))]

/-- The text of a descriptor. -/
def text (dims : ConeDims) : String := dims.toJson.text

/-- The dimensions that a text holds. -/
def rawOfText? (text : String) : Option (Nat × List Nat × List Nat) := do
  let json ← Json.read text
  match ← json.fields? fieldNames with
  | [some l, some q, some s] =>
    let l ← l.toNat? Word.limit
    let q ← q.toNats? Word.limit
    let s ← s.toNats? Word.limit
    pure (l, q, s)
  | _ => none

/-- The descriptor that a text holds. -/
def ofText? (text : String) : Option ConeDims := do
  let (l, q, s) ← rawOfText? text
  (new l q s).toOption

end ConicSaddle.ConeDims
