import ConicSaddle.Proofs.Number.Decimal

/-!
# The grammar of JSON

Which texts stand for which values, without a word about how they are read.

* `Blank`, `SpellsString`, `SpellsNumber`: white space, strings and numbers;
* `Spells`, `SpellsItems`, `SpellsMembers`: values;
* `Json.IsTextOf`: a whole text, with white space around the value.
-/

namespace ConicSaddle.Json

open Decimal (digitChar)

/-- Nothing but white space. -/
def Blank (cs : List Char) : Prop := ∀ c ∈ cs, isBlank c = true

/-! ### Strings -/

/-- The texts of one character of a string, or of one code unit. -/
inductive SpellsPiece : Piece → List Char → Prop
  | plain {c : Char} (control : 0x20 ≤ c.toNat) (quote : c ≠ '"') (backslash : c ≠ '\\') :
      SpellsPiece (.char c) [c]
  | escape {e c : Char} (h : escape? e = some c) : SpellsPiece (.char c) ['\\', e]
  | unit {a b c d : Char} {u : ℕ} (h : unit? a b c d = some u) :
      SpellsPiece (.unit u) ['\\', 'u', a, b, c, d]

/-- The text of the pieces of a string, with the closing quote. -/
inductive SpellsPieces : List Piece → List Char → Prop
  | nil : SpellsPieces [] ['"']
  | cons {piece : Piece} {pieces : List Piece} {cs ds : List Char} (head : SpellsPiece piece cs)
      (tail : SpellsPieces pieces ds) : SpellsPieces (piece :: pieces) (cs ++ ds)

/-- The text of a string behind its opening quote. -/
def SpellsString (s : Option String) (cs : List Char) : Prop :=
  ∃ pieces, SpellsPieces pieces cs ∧ s = (assemble pieces).map String.ofList

/-! ### Numbers -/

/-- At least one decimal digit. -/
def IsDigits (ds : List ℕ) : Prop := ds ≠ [] ∧ ∀ d ∈ ds, d < 10

/-- Digits without a zero in front of others. -/
def IsWhole (ds : List ℕ) : Prop := IsDigits ds ∧ ∀ tail, ds = 0 :: tail → tail = []

/-- The digits behind a point. -/
inductive SpellsFraction : Option (List ℕ) → List Char → Prop
  | absent : SpellsFraction none []
  | digits {ds : List ℕ} (h : IsDigits ds) : SpellsFraction (some ds) ('.' :: ds.map digitChar)

/-- The sign of a power of ten. -/
inductive SpellsSign : Bool → List Char → Prop
  | absent : SpellsSign false []
  | plus : SpellsSign false ['+']
  | minus : SpellsSign true ['-']

/-- A power of ten. -/
inductive SpellsPower : Option (Bool × List ℕ) → List Char → Prop
  | absent : SpellsPower none []
  | digits {e : Char} {negative : Bool} {sign : List Char} {ds : List ℕ}
      (letter : e = 'e' ∨ e = 'E') (hsign : SpellsSign negative sign) (hds : IsDigits ds) :
      SpellsPower (some (negative, ds)) (e :: (sign ++ ds.map digitChar))

/-- The text of a number behind its sign. -/
inductive SpellsMagnitude (negative : Bool) : NumberText → List Char → Prop
  | mk {whole : List ℕ} {fraction : Option (List ℕ)} {power : Option (Bool × List ℕ)}
      {f p : List Char} (hwhole : IsWhole whole) (hfraction : SpellsFraction fraction f)
      (hpower : SpellsPower power p) :
      SpellsMagnitude negative ⟨negative, whole, fraction, power⟩
        (whole.map digitChar ++ (f ++ p))

/-- A number. -/
inductive SpellsNumber : NumberText → List Char → Prop
  | negative {n : NumberText} {cs : List Char} (h : SpellsMagnitude true n cs) :
      SpellsNumber n ('-' :: cs)
  | positive {n : NumberText} {cs : List Char} (h : SpellsMagnitude false n cs) :
      SpellsNumber n cs

/-! ### Values -/

mutual

/-- The texts of a value, without white space around it. -/
inductive Spells : Json → List Char → Prop
  | null : Spells .null ['n', 'u', 'l', 'l']
  | boolTrue : Spells (.bool true) ['t', 'r', 'u', 'e']
  | boolFalse : Spells (.bool false) ['f', 'a', 'l', 's', 'e']
  | number {n : NumberText} {cs : List Char} (h : SpellsNumber n cs) : Spells (.number n) cs
  | string {s : Option String} {cs : List Char} (h : SpellsString s cs) :
      Spells (.string s) ('"' :: cs)
  | emptyArray {w : List Char} (h : Blank w) : Spells (.array []) ('[' :: (w ++ [']']))
  | array {items : List Json} {cs : List Char} (h : SpellsItems items cs) :
      Spells (.array items) ('[' :: cs)
  | emptyObject {w : List Char} (h : Blank w) : Spells (.object []) ('\x7b' :: (w ++ ['\x7d']))
  | object {members : List (Option String × Json)} {cs : List Char}
      (h : SpellsMembers members cs) : Spells (.object members) ('\x7b' :: cs)

/-- The texts of the items of an array, at least one, with the end of the array. -/
inductive SpellsItems : List Json → List Char → Prop
  | last {item : Json} {w cs w' : List Char} (hw : Blank w) (hitem : Spells item cs)
      (hw' : Blank w') : SpellsItems [item] (w ++ (cs ++ (w' ++ [']'])))
  | cons {item : Json} {items : List Json} {w cs w' ds : List Char} (hw : Blank w)
      (hitem : Spells item cs) (hw' : Blank w') (hitems : SpellsItems items ds) :
      SpellsItems (item :: items) (w ++ (cs ++ (w' ++ ',' :: ds)))

/-- The texts of the members of an object, at least one, with the end of the object. -/
inductive SpellsMembers : List (Option String × Json) → List Char → Prop
  | last {key : Option String} {value : Json} {w ks u v cs w' : List Char} (hw : Blank w)
      (hkey : SpellsString key ks) (hu : Blank u) (hv : Blank v) (hvalue : Spells value cs)
      (hw' : Blank w') :
      SpellsMembers [(key, value)]
        (w ++ '"' :: (ks ++ (u ++ ':' :: (v ++ (cs ++ (w' ++ ['\x7d']))))))
  | cons {key : Option String} {value : Json} {members : List (Option String × Json)}
      {w ks u v cs w' ds : List Char} (hw : Blank w) (hkey : SpellsString key ks) (hu : Blank u)
      (hv : Blank v) (hvalue : Spells value cs) (hw' : Blank w')
      (hmembers : SpellsMembers members ds) :
      SpellsMembers ((key, value) :: members)
        (w ++ '"' :: (ks ++ (u ++ ':' :: (v ++ (cs ++ (w' ++ ',' :: ds))))))

end

/-- The text stands for the value, with white space around it. -/
def IsTextOf (text : String) (value : Json) : Prop :=
  ∃ w cs w', Blank w ∧ Spells value cs ∧ Blank w' ∧ text.toList = w ++ (cs ++ w')

end ConicSaddle.Json
