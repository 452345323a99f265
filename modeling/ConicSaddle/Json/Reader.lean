import ConicSaddle.Json.Basic

/-!
# Reading JSON

The text of one value with white space around it.

* `Piece`, `assemble`: the characters of a string, where two escapes may make one character;
* `readString`, `readNumber`: the two kinds of values with a text of their own;
* `readValue`, `readItems`, `readMembers`: values inside values;
* `Json.read`: a whole text.
-/

namespace ConicSaddle.Json

/-! ### Characters -/

/-- White space between values. -/
def isBlank (c : Char) : Bool := c == ' ' || c == '\n' || c == '\t' || c == '\r'

/-- The text without the white space in front. -/
def skip (cs : List Char) : List Char := cs.dropWhile isBlank

/-- The value of a decimal digit. -/
def digitValue (c : Char) : Nat := c.toNat - '0'.toNat

/-- The value of a hexadecimal digit. -/
def hexValue? (c : Char) : Option Nat :=
  if '0' ≤ c ∧ c ≤ '9' then some (c.toNat - '0'.toNat)
  else if 'a' ≤ c ∧ c ≤ 'f' then some (c.toNat - 'a'.toNat + 10)
  else if 'A' ≤ c ∧ c ≤ 'F' then some (c.toNat - 'A'.toNat + 10)
  else none

/-- The number written with four hexadecimal digits. -/
def unit? (a b c d : Char) : Option Nat := do
  let a ← hexValue? a
  let b ← hexValue? b
  let c ← hexValue? c
  let d ← hexValue? d
  pure (((a * 16 + b) * 16 + c) * 16 + d)

/-- The character that a backslash and another character stand for. -/
def escape? : Char → Option Char
  | '"' => some '"'
  | '\\' => some '\\'
  | '/' => some '/'
  | 'b' => some '\x08'
  | 'f' => some '\x0c'
  | 'n' => some '\n'
  | 'r' => some '\r'
  | 't' => some '\t'
  | _ => none

/-! ### Strings -/

/-- A character, or a code unit that was written as a number. -/
inductive Piece
  | char (c : Char)
  | unit (u : Nat)
  deriving DecidableEq, Repr

/-- The first half of a surrogate pair. -/
def isHigh (u : Nat) : Bool := decide (0xD800 ≤ u) && decide (u < 0xDC00)

/-- The second half of a surrogate pair. -/
def isLow (u : Nat) : Bool := decide (0xDC00 ≤ u) && decide (u < 0xE000)

/-- The characters of a string, unless a half of a surrogate pair stands alone. -/
def assemble : List Piece → Option (List Char)
  | [] => some []
  | .char c :: rest => (assemble rest).map (c :: ·)
  | .unit u :: rest =>
    if isHigh u then
      match rest with
      | .unit v :: rest =>
        if isLow v then
          (assemble rest).map (Char.ofNat (0x10000 + (u - 0xD800) * 0x400 + (v - 0xDC00)) :: ·)
        else
          none
      | _ => none
    else if isLow u then none
    else (assemble rest).map (Char.ofNat u :: ·)

/-- The pieces of a string up to its closing quote, and the text after it. -/
def readPieces : List Char → Option (List Piece × List Char)
  | [] => none
  | '"' :: rest => some ([], rest)
  | '\\' :: 'u' :: a :: b :: c :: d :: rest => do
    let u ← unit? a b c d
    let (pieces, rest) ← readPieces rest
    pure (.unit u :: pieces, rest)
  | '\\' :: e :: rest => do
    let c ← escape? e
    let (pieces, rest) ← readPieces rest
    pure (.char c :: pieces, rest)
  | c :: rest =>
    if c.toNat < 0x20 then none
    else do
      let (pieces, rest) ← readPieces rest
      pure (.char c :: pieces, rest)

/-- A string behind its opening quote. -/
def readString (cs : List Char) : Option (Option String × List Char) := do
  let (pieces, rest) ← readPieces cs
  pure ((assemble pieces).map String.ofList, rest)

/-! ### Numbers -/

/-- The digits in front of a text, and the rest. -/
def readDigits (cs : List Char) : List Nat × List Char :=
  ((cs.takeWhile Char.isDigit).map digitValue, cs.dropWhile Char.isDigit)

/-- The digits before the point: at least one, and no zero in front of others. -/
def readWhole (cs : List Char) : Option (List Nat × List Char) :=
  match readDigits cs with
  | ([], _) => none
  | (0 :: _ :: _, _) => none
  | found => some found

/-- A point with at least one digit after it, if there is one. -/
def readFraction : List Char → Option (Option (List Nat) × List Char)
  | '.' :: cs =>
    match readDigits cs with
    | ([], _) => none
    | (ds, rest) => some (some ds, rest)
  | cs => some (none, cs)

/-- At least one digit of a power of ten. -/
def readPowerDigits (negative : Bool) (cs : List Char) :
    Option (Option (Bool × List Nat) × List Char) :=
  match readDigits cs with
  | ([], _) => none
  | (ds, rest) => some (some (negative, ds), rest)

/-- A power of ten, if there is one. -/
def readPower : List Char → Option (Option (Bool × List Nat) × List Char)
  | c :: cs =>
    if c == 'e' || c == 'E' then
      match cs with
      | '+' :: cs => readPowerDigits false cs
      | '-' :: cs => readPowerDigits true cs
      | cs => readPowerDigits false cs
    else
      some (none, c :: cs)
  | [] => some (none, [])

/-- A number behind its sign. -/
def readMagnitude (negative : Bool) (cs : List Char) : Option (NumberText × List Char) := do
  let (whole, cs) ← readWhole cs
  let (fraction, cs) ← readFraction cs
  let (power, cs) ← readPower cs
  pure (⟨negative, whole, fraction, power⟩, cs)

/-- A number. -/
def readNumber : List Char → Option (NumberText × List Char)
  | '-' :: cs => readMagnitude true cs
  | cs => readMagnitude false cs

/-! ### Values -/

/-- What follows a word. -/
def after? : List Char → List Char → Option (List Char)
  | [], cs => some cs
  | w :: ws, c :: cs => if w = c then after? ws cs else none
  | _ :: _, [] => none

mutual

/-- A value, and the text after it.  `fuel` bounds the number of nested calls. -/
def readValue : (fuel : Nat) → List Char → Option (Json × List Char)
  | 0, _ => none
  | fuel + 1, cs =>
    match skip cs with
    | [] => none
    | c :: cs =>
      if c = '"' then do
        let (s, rest) ← readString cs
        pure (.string s, rest)
      else if c = '[' then
        match skip cs with
        | ']' :: rest => some (.array [], rest)
        | cs => do
          let (items, rest) ← readItems fuel cs
          pure (.array items, rest)
      else if c = '\x7b' then
        match skip cs with
        | '\x7d' :: rest => some (.object [], rest)
        | cs => do
          let (members, rest) ← readMembers fuel cs
          pure (.object members, rest)
      else if c = 'n' then (after? ['u', 'l', 'l'] cs).map (.null, ·)
      else if c = 't' then (after? ['r', 'u', 'e'] cs).map (.bool true, ·)
      else if c = 'f' then (after? ['a', 'l', 's', 'e'] cs).map (.bool false, ·)
      else do
        let (n, rest) ← readNumber (c :: cs)
        pure (.number n, rest)

/-- The items of an array up to its end, at least one. -/
def readItems : (fuel : Nat) → List Char → Option (List Json × List Char)
  | 0, _ => none
  | fuel + 1, cs => do
    let (item, rest) ← readValue fuel cs
    match skip rest with
    | ',' :: rest => do
      let (items, rest) ← readItems fuel rest
      pure (item :: items, rest)
    | ']' :: rest => pure ([item], rest)
    | _ => none

/-- The members of an object up to its end, at least one. -/
def readMembers : (fuel : Nat) → List Char → Option (List (Option String × Json) × List Char)
  | 0, _ => none
  | fuel + 1, cs =>
    match skip cs with
    | '"' :: cs => do
      let (key, rest) ← readString cs
      match skip rest with
      | ':' :: rest => do
        let (value, rest) ← readValue fuel rest
        match skip rest with
        | ',' :: rest => do
          let (members, rest) ← readMembers fuel rest
          pure ((key, value) :: members, rest)
        | '\x7d' :: rest => pure ([(key, value)], rest)
        | _ => none
      | _ => none
    | _ => none

end

/-- The value that a text holds, with nothing but white space around it. -/
def read (text : String) : Option Json := do
  let cs := text.toList
  let (value, rest) ← readValue (2 * cs.length + 2) cs
  if (skip rest).isEmpty then some value else none

end ConicSaddle.Json
