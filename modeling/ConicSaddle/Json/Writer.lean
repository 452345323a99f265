import ConicSaddle.Json.Basic
import ConicSaddle.Number.Decimal

/-!
# Writing JSON

The text of a value without white space.

* `quote`: a string;
* `NumberText.render`, `Json.render`: numbers and values.
-/

namespace ConicSaddle

open Decimal

namespace Json

/-- A hexadecimal digit. -/
def hexDigit (n : Nat) : Char :=
  if n < 10 then Char.ofNat ('0'.toNat + n) else Char.ofNat ('a'.toNat + (n - 10))

/-- A character inside a string. -/
def quoteChar (c : Char) : List Char :=
  if c = '"' then ['\\', '"']
  else if c = '\\' then ['\\', '\\']
  else if c = '\x08' then ['\\', 'b']
  else if c = '\x0c' then ['\\', 'f']
  else if c = '\n' then ['\\', 'n']
  else if c = '\r' then ['\\', 'r']
  else if c = '\t' then ['\\', 't']
  else if c.toNat < 0x20 then
    ['\\', 'u', '0', '0', hexDigit (c.toNat / 16), hexDigit (c.toNat % 16)]
  else [c]

/-- A string. -/
def quote (s : String) : List Char := '"' :: (s.toList.flatMap quoteChar ++ ['"'])

end Json

/-- A number. -/
def NumberText.render (n : NumberText) : List Char :=
  (if n.negative then ['-'] else []) ++ n.whole.map digitChar ++
    (match n.fraction with
      | none => []
      | some ds => '.' :: ds.map digitChar) ++
    (match n.power with
      | none => []
      | some (negative, ds) => 'e' :: ((if negative then ['-'] else []) ++ ds.map digitChar))

namespace Json

/-- A natural number. -/
def ofNat (n : Nat) : Json := .number ⟨false, digits n, none, none⟩

mutual

/-- A value. -/
def render : Json → List Char
  | null => ['n', 'u', 'l', 'l']
  | bool true => ['t', 'r', 'u', 'e']
  | bool false => ['f', 'a', 'l', 's', 'e']
  | number n => n.render
  | string s => quote (s.getD "")
  | array items => '[' :: renderItems items
  | object members => '\x7b' :: renderMembers members

/-- The items of an array with its end. -/
def renderItems : List Json → List Char
  | [] => [']']
  | [item] => item.render ++ [']']
  | item :: items => item.render ++ ',' :: renderItems items

/-- The members of an object with its end. -/
def renderMembers : List (Option String × Json) → List Char
  | [] => ['\x7d']
  | [(key, value)] => quote (key.getD "") ++ ':' :: (value.render ++ ['\x7d'])
  | (key, value) :: members =>
    quote (key.getD "") ++ ':' :: (value.render ++ ',' :: renderMembers members)

end

/-- The text of a value. -/
def text (value : Json) : String := String.ofList value.render

end Json

end ConicSaddle
