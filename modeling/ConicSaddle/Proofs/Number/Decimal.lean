import Mathlib.Tactic.Common
import ConicSaddle.Json.Reader
import ConicSaddle.Number.Decimal

/-!
# Decimal digits of natural numbers

The digits of a number are those of its decimal numeral: each is below ten, there is no zero in
front of others, and they give the number back.  A digit and its character determine each other.

* `Decimal.digits_ne_nil`, `digits_lt`, `eq_zero_of_digits`: what the digits are;
* `Decimal.ofDigits_digits`: the number they give back;
* `Decimal.digitValue_digitChar`, `digitChar_digitValue`: digits and characters.
-/

namespace ConicSaddle.Decimal

open Json (digitValue)

@[simp] theorem ofDigits_append_single (ds : List ℕ) (d : ℕ) :
    ofDigits (ds ++ [d]) = 10 * ofDigits ds + d := by
  simp [ofDigits]

theorem digits_of_lt {n : ℕ} (h : n < 10) : digits n = [n] := by
  rw [digits, if_pos h]

theorem digits_of_le {n : ℕ} (h : 10 ≤ n) : digits n = digits (n / 10) ++ [n % 10] := by
  rw [digits, if_neg (Nat.not_lt.mpr h)]

@[simp] theorem ofDigits_digits (n : ℕ) : ofDigits (digits n) = n := by
  induction n using digits.induct with
  | case1 n h => simp [digits_of_lt h, ofDigits]
  | case2 n h ih =>
    rw [digits_of_le (Nat.not_lt.mp h), ofDigits_append_single, ih]
    omega

theorem digits_ne_nil (n : ℕ) : digits n ≠ [] := by
  rcases Nat.lt_or_ge n 10 with h | h
  · simp [digits_of_lt h]
  · simp [digits_of_le h]

theorem digits_lt {n d : ℕ} (hd : d ∈ digits n) : d < 10 := by
  induction n using digits.induct with
  | case1 n h =>
    rw [digits_of_lt h, List.mem_singleton] at hd
    exact hd ▸ h
  | case2 n h ih =>
    rw [digits_of_le (Nat.not_lt.mp h), List.mem_append, List.mem_singleton] at hd
    rcases hd with hd | rfl
    · exact ih hd
    · exact Nat.mod_lt n (by decide)

/-- Only zero has a zero in front. -/
theorem eq_zero_of_digits {n : ℕ} {ds : List ℕ} (h : digits n = 0 :: ds) : n = 0 := by
  induction n using digits.induct generalizing ds with
  | case1 n hn =>
    rw [digits_of_lt hn] at h
    exact (List.cons.inj h).1
  | case2 n hn ih =>
    obtain ⟨d, front, hfront⟩ := List.exists_cons_of_ne_nil (digits_ne_nil (n / 10))
    rw [digits_of_le (Nat.not_lt.mp hn), hfront, List.cons_append] at h
    obtain ⟨rfl, -⟩ := List.cons.inj h
    have := ih hfront
    omega

/-! ### Characters -/

theorem digitValue_digitChar {d : ℕ} (h : d < 10) : digitValue (digitChar d) = d := by
  have hall : ∀ e < 10, digitValue (digitChar e) = e := by decide
  exact hall d h

theorem isDigit_digitChar {d : ℕ} (h : d < 10) : (digitChar d).isDigit = true := by
  have hall : ∀ e < 10, (digitChar e).isDigit = true := by decide
  exact hall d h

theorem toNat_of_isDigit {c : Char} (h : c.isDigit = true) : 48 ≤ c.toNat ∧ c.toNat ≤ 57 := by
  simpa [Char.isDigit, UInt32.le_iff_toNat_le] using h

theorem digitValue_lt {c : Char} (h : c.isDigit = true) : digitValue c < 10 := by
  have := toNat_of_isDigit h
  show c.toNat - 48 < 10
  omega

theorem digitChar_digitValue {c : Char} (h : c.isDigit = true) : digitChar (digitValue c) = c := by
  have hle : '0'.toNat ≤ c.toNat := (toNat_of_isDigit h).1
  rw [digitChar, digitValue, Nat.add_sub_cancel' hle, Char.ofNat_toNat]

theorem map_digitChar_digitValue {cs : List Char} (h : ∀ c ∈ cs, c.isDigit = true) :
    (cs.map digitValue).map digitChar = cs := by
  rw [List.map_map]
  exact (List.map_congr_left (g := id) fun c hc => digitChar_digitValue (h c hc)).trans
    (List.map_id cs)

theorem map_digitValue_digitChar {ds : List ℕ} (h : ∀ d ∈ ds, d < 10) :
    (ds.map digitChar).map digitValue = ds := by
  rw [List.map_map]
  exact (List.map_congr_left (g := id) fun d hd => digitValue_digitChar (h d hd)).trans
    (List.map_id ds)

end ConicSaddle.Decimal
