/-!
# JSON values

Values as the text has them: a number keeps its digits and a string may hold halves of surrogate
pairs, so that whether a value can be used is decided where it is used.

* `NumberText`: the digits of a number;
* `Json`: values.
-/

namespace ConicSaddle

/-- A number as it is written. -/
structure NumberText where
  negative : Bool
  whole : List Nat
  /-- The digits after the point, if there is one. -/
  fraction : Option (List Nat)
  /-- Whether the power of ten is negative, and its digits, if there is one. -/
  power : Option (Bool × List Nat)
  deriving DecidableEq, Repr

/-- A value.  The text of a string is missing if the string is not well formed. -/
inductive Json
  | null
  | bool (b : Bool)
  | number (n : NumberText)
  | string (s : Option String)
  | array (items : List Json)
  | object (members : List (Option String × Json))

end ConicSaddle
