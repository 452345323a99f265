import ConicSaddle.Json.Writer
import ConicSaddle.Proofs.Json.Reading

/-!
# Writing

What is written for a well formed value is a text of the value in the grammar, so it is read as
that value.

* `NumberText.WellFormed`, `Json.WellFormed`: numbers with digits, values with strings;
* `spellsString_quote`, `spellsNumber_render`, `spells_render`: what is written;
* `Json.isTextOf_text`: a whole text.
-/

namespace ConicSaddle

open Decimal (digitChar)

/-- Every part of the number has digits, and the whole part has no zero in front of others. -/
structure NumberText.WellFormed (n : NumberText) : Prop where
  whole : Json.IsWhole n.whole
  fraction : ∀ ds ∈ n.fraction, Json.IsDigits ds
  power : ∀ p ∈ n.power, Json.IsDigits p.2

namespace Json

mutual

/-- All numbers are well formed, and no string is missing. -/
def WellFormed : Json → Prop
  | null => True
  | bool _ => True
  | number n => n.WellFormed
  | string s => s ≠ none
  | array items => WellFormedItems items
  | object members => WellFormedMembers members

/-- The same for the items of an array. -/
def WellFormedItems : List Json → Prop
  | [] => True
  | item :: items => item.WellFormed ∧ WellFormedItems items

/-- The same for the members of an object, whose keys are strings too. -/
def WellFormedMembers : List (Option String × Json) → Prop
  | [] => True
  | (key, value) :: members => key ≠ none ∧ value.WellFormed ∧ WellFormedMembers members

end

/-! ### Strings -/

/-- A control character is written with two hexadecimal digits behind two zeros. -/
theorem unit?_control {n : ℕ} (h : n < 0x20) :
    unit? '0' '0' (hexDigit (n / 16)) (hexDigit (n % 16)) = some n := by
  have hall : ∀ m < 0x20, unit? '0' '0' (hexDigit (m / 16)) (hexDigit (m % 16)) = some m := by
    decide
  exact hall n h

/-- What is written for a character stands for that character. -/
theorem exists_piece (c : Char) : ∃ piece, SpellsPiece piece (quoteChar c) ∧
    ∀ pieces, assemble (piece :: pieces) = (assemble pieces).map (c :: ·) := by
  unfold quoteChar
  split_ifs with h₁ h₂ h₃ h₄ h₅ h₆ h₇ hcontrol
  · exact ⟨_, .escape (by rw [h₁]; rfl), fun _ => rfl⟩
  · exact ⟨_, .escape (by rw [h₂]; rfl), fun _ => rfl⟩
  · exact ⟨_, .escape (by rw [h₃]; rfl), fun _ => rfl⟩
  · exact ⟨_, .escape (by rw [h₄]; rfl), fun _ => rfl⟩
  · exact ⟨_, .escape (by rw [h₅]; rfl), fun _ => rfl⟩
  · exact ⟨_, .escape (by rw [h₆]; rfl), fun _ => rfl⟩
  · exact ⟨_, .escape (by rw [h₇]; rfl), fun _ => rfl⟩
  · refine ⟨.unit c.toNat, .unit (unit?_control hcontrol), fun pieces => ?_⟩
    have hhigh : isHigh c.toNat = false := by simp [isHigh]; omega
    have hlow : isLow c.toNat = false := by simp [isLow]; omega
    rw [assemble.eq_def]
    simp [hhigh, hlow]
  · exact ⟨_, .plain (Nat.not_lt.mp hcontrol) h₁ h₂, fun _ => rfl⟩

theorem exists_pieces (cs : List Char) : ∃ pieces,
    SpellsPieces pieces (cs.flatMap quoteChar ++ ['"']) ∧ assemble pieces = some cs := by
  induction cs with
  | nil => exact ⟨[], .nil, rfl⟩
  | cons c cs ih =>
    obtain ⟨pieces, hpieces, hassemble⟩ := ih
    obtain ⟨piece, hpiece, hchar⟩ := exists_piece c
    refine ⟨piece :: pieces, ?_, by simp [hchar, hassemble]⟩
    rw [List.flatMap_cons, List.append_assoc]
    exact .cons hpiece hpieces

theorem spellsString_quote (s : String) :
    SpellsString (some s) (s.toList.flatMap quoteChar ++ ['"']) := by
  obtain ⟨pieces, hpieces, hassemble⟩ := exists_pieces s.toList
  exact ⟨pieces, hpieces, by simp [hassemble]⟩

/-! ### Numbers -/

theorem spellsFraction_render (fraction : Option (List ℕ)) :
    (∀ ds ∈ fraction, IsDigits ds) → SpellsFraction fraction (match fraction with
      | none => []
      | some ds => '.' :: ds.map digitChar) := by
  intro h
  cases fraction with
  | none => exact .absent
  | some ds => exact .digits (h ds rfl)

theorem spellsPower_render (power : Option (Bool × List ℕ)) :
    (∀ p ∈ power, IsDigits p.2) → SpellsPower power (match power with
      | none => []
      | some (negative, ds) => 'e' :: ((if negative then ['-'] else []) ++ ds.map digitChar)) := by
  intro h
  match power, h with
  | none, _ => exact .absent
  | some (true, ds), h => exact .digits (.inl rfl) .minus (h _ rfl)
  | some (false, ds), h => exact .digits (.inl rfl) .absent (h _ rfl)

theorem spellsNumber_render {n : NumberText} (h : n.WellFormed) : SpellsNumber n n.render := by
  obtain ⟨negative, whole, fraction, power⟩ := n
  have hmagnitude : ∀ negative, SpellsMagnitude negative ⟨negative, whole, fraction, power⟩ _ :=
    fun _ => .mk h.whole (spellsFraction_render _ h.fraction) (spellsPower_render _ h.power)
  rw [NumberText.render, List.append_assoc, List.append_assoc]
  cases negative with
  | true => exact .negative (hmagnitude true)
  | false => exact .positive (hmagnitude false)

/-! ### Values -/

mutual

theorem spells_render : ∀ {v : Json}, v.WellFormed → Spells v v.render
  | null, _ => .null
  | bool true, _ => .boolTrue
  | bool false, _ => .boolFalse
  | number _, h => .number (spellsNumber_render h)
  | string none, h => absurd rfl h
  | string (some s), _ => .string (spellsString_quote s)
  | array [], _ => .emptyArray blank_nil
  | array (item :: items), h => .array (spellsItems_render (List.cons_ne_nil item items) h)
  | object [], _ => .emptyObject blank_nil
  | object (member :: members), h =>
    .object (spellsMembers_render (List.cons_ne_nil member members) h)

theorem spellsItems_render : ∀ {items : List Json}, items ≠ [] → WellFormedItems items →
    SpellsItems items (renderItems items)
  | [], h, _ => absurd rfl h
  | [_], _, h => .last blank_nil (spells_render h.1) blank_nil
  | _ :: next :: items, _, h =>
    .cons blank_nil (spells_render h.1) blank_nil
      (spellsItems_render (List.cons_ne_nil next items) h.2)

theorem spellsMembers_render : ∀ {members : List (Option String × Json)}, members ≠ [] →
    WellFormedMembers members → SpellsMembers members (renderMembers members)
  | [], h, _ => absurd rfl h
  | (none, _) :: _, _, h => absurd rfl h.1
  | [(some key, _)], _, h =>
    .last blank_nil (spellsString_quote key) blank_nil blank_nil (spells_render h.2.1) blank_nil
  | (some key, _) :: next :: members, _, h =>
    .cons blank_nil (spellsString_quote key) blank_nil blank_nil (spells_render h.2.1) blank_nil
      (spellsMembers_render (List.cons_ne_nil next members) h.2.2)

end

/-- **Values survive writing.**  The text of a well formed value is one of the texts that are read
as the value. -/
theorem isTextOf_text {v : Json} (h : v.WellFormed) : IsTextOf v.text v :=
  ⟨[], v.render, [], blank_nil, spells_render h, blank_nil, by simp [text]⟩

end Json

end ConicSaddle
