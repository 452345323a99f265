import ConicSaddle.Json.Number

/-!
# Records in JSON

A record is an object with a member for each field, or an array of the fields in their order.

* `Json.fields?`: the values of named fields;
* `Json.toNat?`, `toBool?`, `toText?`, `toScalar?`, `toNats?`: values of the types that fields have.
-/

namespace ConicSaddle.Json

/-- The value of a field of an object, if it has one; nothing if it has several. -/
def member? (members : List (Option String × Json)) (name : String) : Option (Option Json) :=
  match members.filter fun m => m.1 == some name with
  | [] => some none
  | [m] => some (some m.2)
  | _ => none

/-- The values of the named fields, each as far as it is there.  In an object every key is well
formed, no field has two values, and other members do not count.  In an array the fields stand in
their order, and the last ones may be missing. -/
def fields? (names : List String) : Json → Option (List (Option Json))
  | object members =>
    if members.all fun m => m.1.isSome then names.mapM (member? members) else none
  | array items =>
    if items.length ≤ names.length then
      some (items.map some ++ List.replicate (names.length - items.length) none)
    else none
  | _ => none

/-- A natural number below a limit. -/
def toNat? (limit : Nat) : Json → Option Nat
  | number n => n.toNat?.filter fun k => decide (k < limit)
  | _ => none

/-- A list of natural numbers below a limit. -/
def toNats? (limit : Nat) : Json → Option (List Nat)
  | array items => items.mapM (toNat? limit)
  | _ => none

/-- A truth value. -/
def toBool? : Json → Option Bool
  | bool b => some b
  | _ => none

/-- A well formed string. -/
def toText? : Json → Option String
  | string s => s
  | _ => none

/-- A number of a floating point format. -/
def toScalar? {α : Type} [FloatFormat α] : Json → Option α
  | number n => n.toScalar?
  | _ => none

end ConicSaddle.Json
