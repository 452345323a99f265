import Mathlib.Data.List.TakeWhile
import ConicSaddle.Proofs.Json.Grammar

/-!
# Reading strings and numbers

What is read at the front of a text are the longest texts of the grammar: everything that is read
is such a text, and such a text is read whenever what follows cannot belong to it.

* `Scans`: the two directions for one function of the reader;
* `scans_fraction`, `scans_power`, `scans_number`, `scans_string`: the functions;
* `exists_skip`, `skip_append_cons`: white space;
* `readDigits_sound`, `readDigits_append`: digits.
-/

namespace ConicSaddle.Json

open Decimal (digitChar)

/-- The text is at its end or goes on with a character that has the property. -/
def Before (p : Char → Prop) (rest : List Char) : Prop := ∀ c ∈ rest.head?, p c

@[simp] theorem before_nil (p : Char → Prop) : Before p [] := by simp [Before]

@[simp] theorem before_cons {p : Char → Prop} {c : Char} {cs : List Char} :
    Before p (c :: cs) ↔ p c := by
  simp [Before]

theorem Before.mono {p q : Char → Prop} {rest : List Char} (h : Before p rest)
    (hpq : ∀ c, p c → q c) : Before q rest :=
  fun c hc => hpq c (h c hc)

/-- The function reads texts of the relation at the front of a text, and every such text that is
followed as required. -/
structure Scans {β : Type} (scan : List Char → Option (β × List Char))
    (Text : β → List Char → Prop) (follow : Char → Prop) : Prop where
  sound : ∀ {cs x rest}, scan cs = some (x, rest) → ∃ front, Text x front ∧ cs = front ++ rest
  complete : ∀ {x front rest}, Text x front → Before follow rest →
    scan (front ++ rest) = some (x, rest)

theorem takeWhile_append_of_before {p : Char → Bool} {front rest : List Char}
    (hfront : ∀ c ∈ front, p c = true) (hrest : Before (p · = false) rest) :
    (front ++ rest).takeWhile p = front ∧ (front ++ rest).dropWhile p = rest := by
  rw [List.takeWhile_append_of_pos hfront, List.dropWhile_append_of_pos hfront]
  cases rest with
  | nil => simp
  | cons c rest => simp_all

/-- A function that wraps what another one reads. -/
theorem exists_of_wrapped {β γ : Type} {read : Option (β × List Char)} {wrap : β → γ} {y : γ}
    {rest : List Char} (h : (do
      let (x, rest) ← read
      pure (wrap x, rest)) = some (y, rest)) : ∃ x, read = some (x, rest) ∧ wrap x = y := by
  simp only [Option.bind_eq_bind, Option.bind_eq_some_iff, Prod.exists] at h
  obtain ⟨x, rest', hread, h⟩ := h
  cases h
  exact ⟨x, hread, rfl⟩

/-! ### White space -/

theorem skip_append {w : List Char} (hw : Blank w) (cs : List Char) : skip (w ++ cs) = skip cs :=
  List.dropWhile_append_of_pos hw

@[simp] theorem skip_cons {c : Char} (hc : isBlank c = false) (cs : List Char) :
    skip (c :: cs) = c :: cs := by
  simp [skip, hc]

theorem skip_append_cons {w : List Char} (hw : Blank w) {c : Char} (hc : isBlank c = false)
    (cs : List Char) : skip (w ++ c :: cs) = c :: cs := by
  rw [skip_append hw, skip_cons hc]

theorem exists_skip (cs : List Char) : ∃ w, Blank w ∧ cs = w ++ skip cs :=
  ⟨cs.takeWhile isBlank, fun _ hc => List.mem_takeWhile_imp hc,
    List.takeWhile_append_dropWhile.symm⟩

theorem skip_skip (cs : List Char) : skip (skip cs) = skip cs := by
  obtain ⟨w, hw, h⟩ := exists_skip cs
  exact (skip_append hw _).symm.trans (congrArg skip h.symm)

/-! ### Digits -/

theorem readDigits_sound {cs rest : List Char} {ds : List ℕ} (h : readDigits cs = (ds, rest)) :
    (∀ d ∈ ds, d < 10) ∧ cs = ds.map digitChar ++ rest := by
  obtain ⟨rfl, rfl⟩ := Prod.mk.inj h
  have hdigit : ∀ c ∈ cs.takeWhile Char.isDigit, c.isDigit = true := fun c hc =>
    List.mem_takeWhile_imp hc
  constructor
  · simp only [List.mem_map]
    rintro d ⟨c, hc, rfl⟩
    exact Decimal.digitValue_lt (hdigit c hc)
  · rw [Decimal.map_digitChar_digitValue hdigit, List.takeWhile_append_dropWhile]

theorem readDigits_append {ds : List ℕ} {rest : List Char} (hds : ∀ d ∈ ds, d < 10)
    (hrest : Before (·.isDigit = false) rest) :
    readDigits (ds.map digitChar ++ rest) = (ds, rest) := by
  have hdigit : ∀ c ∈ ds.map digitChar, c.isDigit = true := by
    simp only [List.mem_map]
    rintro c ⟨d, hd, rfl⟩
    exact Decimal.isDigit_digitChar (hds d hd)
  obtain ⟨htake, hdrop⟩ := takeWhile_append_of_before hdigit hrest
  rw [readDigits, htake, hdrop, Decimal.map_digitValue_digitChar hds]

theorem IsDigits.exists_cons {ds : List ℕ} (h : IsDigits ds) :
    ∃ c cs, ds.map digitChar = c :: cs ∧ c.isDigit = true := by
  obtain ⟨hne, hlt⟩ := h
  cases ds with
  | nil => exact absurd rfl hne
  | cons d ds => exact ⟨_, _, rfl, Decimal.isDigit_digitChar (hlt d (by simp))⟩

/-! ### Numbers -/

theorem scans_whole : Scans readWhole (fun ds cs => IsWhole ds ∧ cs = ds.map digitChar)
    (·.isDigit = false) where
  sound {cs ds rest} h := by
    unfold readWhole at h
    split at h
    · cases h
    · cases h
    · next hnil hzero =>
      have hread := Option.some.inj h
      obtain ⟨hlt, hcs⟩ := readDigits_sound hread
      refine ⟨_, ⟨⟨⟨?_, hlt⟩, ?_⟩, rfl⟩, hcs⟩
      · rintro rfl
        exact hnil _ hread
      · rintro (_ | ⟨d, tail⟩) rfl
        · rfl
        · exact (hzero _ _ _ hread).elim
  complete := by
    rintro ds front rest ⟨⟨⟨hne, hlt⟩, hzero⟩, rfl⟩ hrest
    unfold readWhole
    rw [readDigits_append hlt hrest]
    split <;> simp_all

theorem scans_fraction : Scans readFraction SpellsFraction
    (fun c => c.isDigit = false ∧ c ≠ '.') where
  sound {cs fraction rest} h := by
    unfold readFraction at h
    split at h
    · next cs =>
      split at h
      · cases h
      · next ds rest' hnil hread =>
        obtain ⟨rfl, rfl⟩ := Prod.mk.inj (Option.some.inj h)
        obtain ⟨hlt, rfl⟩ := readDigits_sound hread
        refine ⟨_, .digits ⟨?_, hlt⟩, rfl⟩
        rintro rfl
        exact hnil rfl
    · cases h
      exact ⟨_, .absent, rfl⟩
  complete := by
    rintro fraction front rest (_ | ⟨⟨hne, hlt⟩⟩) hrest
    · cases rest with
      | nil => rfl
      | cons c rest => simp_all [readFraction]
    · rw [List.cons_append, readFraction, readDigits_append hlt (hrest.mono fun _ => And.left)]
      split <;> simp_all

/-- A character that cannot go on with a number. -/
def EndsNumber (c : Char) : Prop := c.isDigit = false ∧ c ≠ '.' ∧ c ≠ 'e' ∧ c ≠ 'E'

theorem scans_powerDigits (negative : Bool) : Scans (readPowerDigits negative)
    (fun x cs => ∃ ds, IsDigits ds ∧ x = some (negative, ds) ∧ cs = ds.map digitChar)
    (·.isDigit = false) where
  sound {cs x rest} h := by
    unfold readPowerDigits at h
    split at h
    · cases h
    · next ds rest' hnil hread =>
      obtain ⟨rfl, rfl⟩ := Prod.mk.inj (Option.some.inj h)
      obtain ⟨hlt, rfl⟩ := readDigits_sound hread
      refine ⟨_, ⟨ds, ⟨?_, hlt⟩, rfl, rfl⟩, rfl⟩
      rintro rfl
      exact hnil rfl
  complete := by
    rintro x front rest ⟨ds, ⟨hne, hlt⟩, rfl, rfl⟩ hrest
    rw [readPowerDigits, readDigits_append hlt hrest]
    split <;> simp_all

theorem scans_power : Scans readPower SpellsPower EndsNumber where
  sound {cs power rest} h := by
    unfold readPower at h
    split at h
    · next c cs =>
      split at h
      · next hletter =>
        have hletter : c = 'e' ∨ c = 'E' := by simpa using hletter
        split at h
        · obtain ⟨_, ⟨ds, hds, rfl, rfl⟩, rfl⟩ := (scans_powerDigits false).sound h
          exact ⟨_, .digits hletter .plus hds, rfl⟩
        · obtain ⟨_, ⟨ds, hds, rfl, rfl⟩, rfl⟩ := (scans_powerDigits true).sound h
          exact ⟨_, .digits hletter .minus hds, rfl⟩
        · obtain ⟨_, ⟨ds, hds, rfl, rfl⟩, rfl⟩ := (scans_powerDigits false).sound h
          exact ⟨_, .digits hletter .absent hds, rfl⟩
      · cases h
        exact ⟨_, .absent, rfl⟩
    · cases h
      exact ⟨_, .absent, rfl⟩
  complete := by
    rintro power front rest (_ | @⟨e, negative, sign, ds, hletter, hsign, hds⟩) hrest
    · cases rest with
      | nil => rfl
      | cons c rest => simp_all [readPower, EndsNumber]
    · have hletter : (e == 'e' || e == 'E') = true := by simpa using hletter
      have hrest := hrest.mono fun _ => And.left
      have hread := fun negative => (scans_powerDigits negative).complete ⟨_, hds, rfl, rfl⟩ hrest
      cases hsign with
      | plus => simpa [readPower, hletter] using hread false
      | minus => simpa [readPower, hletter] using hread true
      | absent =>
        obtain ⟨c, cs, hcons, hc⟩ := hds.exists_cons
        have hplus : c ≠ '+' := by rintro rfl; cases hc
        have hminus : c ≠ '-' := by rintro rfl; cases hc
        have hread := hread false
        rw [hcons] at hread ⊢
        simpa [readPower, hletter, hplus, hminus] using hread

/-- What follows the fraction of a number does not go on with its digits. -/
theorem SpellsPower.before {power : Option (Bool × List ℕ)} {p rest : List Char}
    (h : SpellsPower power p) (hrest : Before EndsNumber rest) :
    Before (fun c => c.isDigit = false ∧ c ≠ '.') (p ++ rest) := by
  cases h with
  | absent => exact hrest.mono fun c hc => ⟨hc.1, hc.2.1⟩
  | digits hletter => rcases hletter with rfl | rfl <;> simp

theorem SpellsFraction.before {fraction : Option (List ℕ)} {f rest : List Char}
    (h : SpellsFraction fraction f) (hrest : Before (fun c => c.isDigit = false ∧ c ≠ '.') rest) :
    Before (·.isDigit = false) (f ++ rest) := by
  cases h with
  | absent => exact hrest.mono fun _ => And.left
  | digits => simp

theorem scans_magnitude (negative : Bool) :
    Scans (readMagnitude negative) (SpellsMagnitude negative) EndsNumber where
  sound {cs n rest} h := by
    simp only [readMagnitude, Option.bind_eq_bind, Option.bind_eq_some_iff, Prod.exists] at h
    obtain ⟨whole, cs₁, h₁, fraction, cs₂, h₂, power, cs₃, h₃, h⟩ := h
    cases h
    obtain ⟨_, ⟨hwhole, rfl⟩, rfl⟩ := scans_whole.sound h₁
    obtain ⟨f, hfraction, rfl⟩ := scans_fraction.sound h₂
    obtain ⟨p, hpower, rfl⟩ := scans_power.sound h₃
    exact ⟨_, .mk hwhole hfraction hpower, by simp⟩
  complete := by
    rintro n front rest ⟨hwhole, hfraction, hpower⟩ hrest
    have hbefore := hpower.before hrest
    simp only [readMagnitude, List.append_assoc]
    simp [scans_whole.complete ⟨hwhole, rfl⟩ (hfraction.before hbefore),
      scans_fraction.complete hfraction hbefore, scans_power.complete hpower hrest]

theorem SpellsMagnitude.exists_cons {negative : Bool} {n : NumberText} {cs : List Char}
    (h : SpellsMagnitude negative n cs) : ∃ c rest, cs = c :: rest ∧ c.isDigit = true := by
  obtain ⟨hwhole, -, -⟩ := h
  obtain ⟨c, cs, hcons, hc⟩ := hwhole.1.exists_cons
  rw [hcons]
  exact ⟨c, _, rfl, hc⟩

theorem scans_number : Scans readNumber SpellsNumber EndsNumber where
  sound {cs n rest} h := by
    unfold readNumber at h
    split at h
    · obtain ⟨_, hn, rfl⟩ := (scans_magnitude true).sound h
      exact ⟨_, .negative hn, rfl⟩
    · obtain ⟨_, hn, rfl⟩ := (scans_magnitude false).sound h
      exact ⟨_, .positive hn, rfl⟩
  complete := by
    rintro n front rest (hn | hn) hrest
    · exact (scans_magnitude true).complete hn hrest
    · have hread := (scans_magnitude false).complete hn hrest
      obtain ⟨c, cs, rfl, hc⟩ := hn.exists_cons
      have hminus : c ≠ '-' := by rintro rfl; cases hc
      simpa [readNumber, hminus] using hread

/-! ### Strings -/

theorem scans_pieces : Scans readPieces SpellsPieces fun _ => True where
  sound {cs pieces rest} h := by
    fun_induction readPieces cs generalizing pieces with
    | case1 => cases h
    | case2 cs =>
      cases h
      exact ⟨_, .nil, rfl⟩
    | case3 a b c d cs ih =>
      obtain ⟨u, hu, h⟩ := Option.bind_eq_some_iff.mp h
      obtain ⟨pieces', hpieces, rfl⟩ := exists_of_wrapped h
      obtain ⟨front, hfront, rfl⟩ := ih hpieces
      exact ⟨_, .cons (.unit hu) hfront, rfl⟩
    | case4 e cs hunit ih =>
      obtain ⟨c, hc, h⟩ := Option.bind_eq_some_iff.mp h
      obtain ⟨pieces', hpieces, rfl⟩ := exists_of_wrapped h
      obtain ⟨front, hfront, rfl⟩ := ih hpieces
      exact ⟨_, .cons (.escape hc) hfront, rfl⟩
    | case5 c cs hquote hunit hescape hcontrol => cases h
    | case6 c cs hquote hunit hescape hcontrol ih =>
      obtain ⟨pieces', hpieces, rfl⟩ := exists_of_wrapped h
      obtain ⟨front, hfront, rfl⟩ := ih hpieces
      have hbackslash : c ≠ '\\' := by
        rintro rfl
        cases hcs : front ++ rest with
        | nil => rw [hcs] at hpieces; cases hpieces
        | cons e cs => exact hescape e cs rfl hcs
      exact ⟨_, .cons (.plain (Nat.not_lt.mp hcontrol) hquote hbackslash) hfront, rfl⟩
  complete := by
    intro pieces front rest h _
    induction h with
    | nil => rfl
    | @cons piece pieces cs ds hpiece htail ih =>
      rw [List.append_assoc]
      cases hpiece with
      | @plain c hcontrol hquote hbackslash =>
        simp [readPieces, hbackslash, Nat.not_lt.mpr hcontrol, ih]
      | @escape e c h =>
        have hunit : e ≠ 'u' := by rintro rfl; cases h
        simp [readPieces, hunit, h, ih]
      | unit h => simp [readPieces, h, ih]

theorem scans_string : Scans readString SpellsString fun _ => True where
  sound {cs s rest} h := by
    simp only [readString, Option.bind_eq_bind, Option.bind_eq_some_iff, Prod.exists] at h
    obtain ⟨pieces, rest', hpieces, h⟩ := h
    cases h
    obtain ⟨front, hfront, rfl⟩ := scans_pieces.sound hpieces
    exact ⟨front, ⟨pieces, hfront, rfl⟩, rfl⟩
  complete := by
    rintro s front rest ⟨pieces, hpieces, rfl⟩ hrest
    simp [readString, scans_pieces.complete hpieces hrest]

end ConicSaddle.Json
