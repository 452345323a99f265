import Mathlib.Algebra.Ring.Int.Defs
import Mathlib.Algebra.Ring.Nat
import ConicSaddle.Proofs.Nan.Rules

/-!
# Finite products

Rounding can carry a product to the next power of two, but not out of the range of finite values if
one factor is the reciprocal of the square root of two.

* `ShrinkRules`: the rule, with instances for the two binary floating point types;
* `shift_exponent_le`: the exponent to which a mantissa is shifted;
* `shifted_lt`: a product of two mantissas after it was shifted and rounded;
* `atMost_roundWithAccuracy`: the exponent of a rounded product;
* `isFinite_packed`, `ofFormat_unpack`: the exponents of packed values.
-/

namespace ConicSaddle

/-- The rule for the factor that unpacking multiplies with. -/
class ShrinkRules (α : Type) [Scalar α] : Prop where
  isFinite_mul_invRootTwo {x : α} (h : Scalar.isFinite x = true) :
    Scalar.isFinite (x * Scalar.invRootTwo) = true

namespace Binary

open Float.Model Float.Model.UnpackedFloat

variable {spec : Format}

/-! ### Shifting and rounding -/

theorem log2_succ_le {m bits : ℕ} (hm : m < 2 ^ bits) (hbits : 0 < bits) : m.log2 + 1 ≤ bits := by
  by_cases hzero : m = 0
  · rw [hzero, Nat.log2_zero]
    exact hbits
  · exact (Nat.log2_lt hzero).mpr hm

theorem mantissaBits_pos (spec : Format) : 0 < spec.mantissaBits := by
  unfold Format.mantissaBits
  omega

/-- A mantissa is shifted no farther than its number of bits asks for. -/
theorem shift_exponent_le {m : ℕ} {e top : ℤ} (he : e ≤ top) (hmin : spec.minExponent ≤ top)
    (hm : m < 2 ^ (spec.mantissaBits + (top - e).toNat)) (accuracy : Accuracy) :
    (shiftToTargetExponent spec m e accuracy).2 ≤ top := by
  have hbits := log2_succ_le hm (Nat.add_pos_left (mantissaBits_pos spec) _)
  show e + ((spec.targetExponent (totalExponent m e) - e).toNat : ℤ) ≤ top
  unfold Format.targetExponent totalExponent
  omega

theorem shiftRight_mantissa (em : ExtendedMantissa) (k : ℕ) :
    (em >>> k).mantissa = em.mantissa / 2 ^ k := by
  induction k with
  | zero => exact (Nat.div_one _).symm
  | succ k ih =>
    show (em >>> k).mantissa / 2 = _
    rw [ih, Nat.div_div_eq_div_mul, Nat.pow_succ]

/-- Rounding adds one to the mantissa at most. -/
theorem roundedMantissa_le (em : ExtendedMantissa) : em.roundedMantissa ≤ em.mantissa + 1 := by
  obtain ⟨m, round, sticky⟩ := em
  cases round with
  | false =>
    cases sticky with
    | false => exact Nat.le_succ m
    | true => exact Nat.le_succ m
  | true =>
    cases sticky with
    | false =>
      show m + m % 2 ≤ m + 1
      omega
    | true => exact Nat.le_refl (m + 1)

/-- Two mantissas, of which the second is not next to the largest, multiplied, shifted and rounded
up: `k` bits were dropped, and `d` bits more than the format has are left. -/
theorem shifted_lt {bits m c k d : ℕ} (hm : m < 2 ^ bits) (hc : c + 2 ≤ 2 ^ bits)
    (hbits : bits ≤ k + d) : m * c / 2 ^ k + 1 < 2 ^ (bits + d) := by
  have hproduct : m * c ≤ 2 ^ k * (2 ^ d * c) := by
    calc m * c ≤ 2 ^ bits * c := Nat.mul_le_mul_right c (Nat.le_of_lt hm)
      _ ≤ 2 ^ (k + d) * c := Nat.mul_le_mul_right c (Nat.pow_le_pow_right (by omega) hbits)
      _ = 2 ^ k * (2 ^ d * c) := by rw [Nat.pow_add, Nat.mul_assoc]
  have hshifted : m * c / 2 ^ k ≤ 2 ^ d * c :=
    Nat.div_le_of_le_mul hproduct
  have hroom : 2 ^ d * c + 2 ^ d * 2 ≤ 2 ^ (bits + d) := by
    rw [← Nat.mul_add, Nat.add_comm bits, Nat.pow_add]
    exact Nat.mul_le_mul_left _ hc
  have hpos := Nat.two_pow_pos d
  omega

/-- Zero, or a value with an exponent that is not above `top`. -/
def AtMost (top : ℤ) : UnpackedFloat → Prop
  | .zero _ => True
  | .finite _ _ exponent _ => exponent ≤ top
  | _ => False

theorem atMost_dite {top e : ℤ} {m : ℕ} (h : e ≤ top) (sign : Sign) :
    AtMost top (if hm : m = 0 then .zero sign else .finite sign m e (Nat.pos_of_ne_zero hm)) := by
  by_cases hm : m = 0
  · rw [dif_pos hm]
    exact trivial
  · rw [dif_neg hm]
    exact h

/-- A product with a mantissa of a value below one, rounded.  The first shift and the carry after it
stay below the exponent of the other factor. -/
theorem atMost_roundWithAccuracy {m c : ℕ} {e top : ℤ} (hm : m < 2 ^ spec.mantissaBits)
    (hc : c + 2 ≤ 2 ^ spec.mantissaBits) (he : e ≤ top) (hmin : spec.minExponent ≤ top)
    (sign : Sign) :
    AtMost top (roundWithAccuracy spec sign (m * c) (e + -spec.mantissaBits) .exact) := by
  obtain ⟨k, hk⟩ : ∃ k : ℕ, k = (spec.targetExponent (totalExponent (m * c)
    (e + -spec.mantissaBits)) - (e + -spec.mantissaBits)).toNat := ⟨_, rfl⟩
  obtain ⟨em, hem⟩ : ∃ em, em = ExtendedMantissa.ofMantissaAndAccuracy (m * c) .exact >>> k :=
    ⟨_, rfl⟩
  have hfirst : shiftToTargetExponent spec (m * c) (e + -spec.mantissaBits) .exact =
      (em, e + -spec.mantissaBits + k) := by
    rw [hem, hk]
    rfl
  have hproduct : m * c < 2 ^ (spec.mantissaBits + (top - (e + -spec.mantissaBits)).toNat) := by
    have hlt : m * c < 2 ^ spec.mantissaBits * 2 ^ spec.mantissaBits :=
      Nat.mul_lt_mul_of_lt_of_le hm (by omega) (by omega)
    rw [← Nat.pow_add] at hlt
    exact Nat.lt_of_lt_of_le hlt (Nat.pow_le_pow_right (by omega) (by omega))
  have htop : e + -spec.mantissaBits + k ≤ top := by
    have hle := shift_exponent_le (m := m * c) (e := e + -spec.mantissaBits) (by omega) hmin
      hproduct .exact
    rwa [hfirst] at hle
  have hrounded : em.roundedMantissa <
      2 ^ (spec.mantissaBits + (top - (e + -spec.mantissaBits + k)).toNat) := by
    refine Nat.lt_of_le_of_lt (roundedMantissa_le em) ?_
    rw [hem, shiftRight_mantissa]
    exact shifted_lt hm hc (by omega)
  have hsecond := shift_exponent_le htop hmin hrounded .exact
  unfold roundWithAccuracy
  rw [hfirst]
  exact atMost_dite hsecond sign

/-! ### Packed values -/

/-- The largest exponent of a finite value. -/
def maxExponent (spec : Format) : ℤ :=
  2 ^ spec.exponentBits - 2 - spec.exponentBias - spec.mantissaBitsWithoutImplicit

theorem isFinite_unpack_packComponents (sign : Sign) {exponent : BitVec spec.exponentBits}
    (mantissa : BitVec spec.mantissaBitsWithoutImplicit) (h : exponent ≠ -1#_) :
    (UnpackedFloat.unpack spec (packComponents spec sign exponent mantissa)).isFinite = true := by
  unfold UnpackedFloat.unpack
  dsimp only
  rw [unpackExponent_packComponents, if_neg h]
  by_cases hexponent : exponent = 0#_
  · rw [if_pos hexponent]
    by_cases hmantissa : unpackMantissa (packComponents spec sign exponent mantissa) = 0#_
    · rw [dif_pos hmantissa]
      rfl
    · rw [dif_neg hmantissa]
      rfl
  · rw [if_neg hexponent]
    rfl

/-- A value whose exponent is not too large is finite after it was packed. -/
theorem isFinite_packed {u : UnpackedFloat} (h : AtMost (maxExponent spec) u) :
    (UnpackedFloat.unpack spec (UnpackedFloat.pack spec u)).isFinite = true := by
  have hbits := Nat.one_lt_two_pow (Nat.pos_iff_ne_zero.mp spec.he)
  have hzero : BitVec.ofNat spec.exponentBits 0 ≠ -1#_ := by
    intro hones
    have hnat := congrArg BitVec.toNat hones
    rw [BitVec.neg_one_eq_allOnes, BitVec.toNat_allOnes, BitVec.toNat_zero] at hnat
    omega
  cases u with
  | notANumber => exact h.elim
  | infinity sign => exact h.elim
  | zero sign => exact isFinite_unpack_packComponents sign _ hzero
  | finite sign mantissa exponent pos =>
    have hexponent : exponent ≤ maxExponent spec := h
    have hpow : ((2 ^ spec.exponentBits : ℕ) : ℤ) = 2 ^ spec.exponentBits := by norm_cast
    unfold maxExponent at hexponent
    have hbiased : (exponent + spec.exponentBias + spec.mantissaBitsWithoutImplicit).toNat + 1 <
        2 ^ spec.exponentBits := by omega
    show (UnpackedFloat.unpack spec (if _ then _ else if _ then _ else _)).isFinite = true
    rw [if_neg (Nat.not_le.mpr hbiased)]
    split
    · apply isFinite_unpack_packComponents
      intro hones
      have hnat := congrArg BitVec.toNat hones
      rw [BitVec.toNat_ofNat, BitVec.neg_one_eq_allOnes, BitVec.toNat_allOnes,
        Nat.mod_eq_of_lt (by omega)] at hnat
      omega
    · exact isFinite_unpack_packComponents sign _ hzero

/-- If the value is finite and not zero, then its mantissa and its exponent are of the format. -/
def OfFormat (spec : Format) : UnpackedFloat → Prop
  | .finite _ mantissa exponent _ =>
    mantissa < 2 ^ spec.mantissaBits ∧ exponent ≤ maxExponent spec
  | _ => True

theorem ofFormat_unpack (hbits : 2 ≤ spec.exponentBits) (b : BitVec spec.numBits) :
    OfFormat spec (UnpackedFloat.unpack spec b) := by
  have hpow : ((2 ^ spec.exponentBits : ℕ) : ℤ) = 2 ^ spec.exponentBits := by norm_cast
  have hfour : 2 ^ 2 ≤ 2 ^ spec.exponentBits := Nat.pow_le_pow_right (by omega) hbits
  have himplicit : 2 ^ spec.mantissaBits = 2 ^ (1 + spec.mantissaBitsWithoutImplicit) := rfl
  have hmantissa := (unpackMantissa b).isLt
  have hexponent := (unpackExponent b).isLt
  unfold UnpackedFloat.unpack
  dsimp only
  by_cases hones : unpackExponent b = -1#_
  · rw [if_pos hones]
    by_cases hzero : unpackMantissa b = 0#_
    · rw [if_pos hzero]
      exact trivial
    · rw [if_neg hzero]
      exact trivial
  rw [if_neg hones]
  have hlt : (unpackExponent b).toNat + 1 < 2 ^ spec.exponentBits := by
    by_contra hge
    apply hones
    apply BitVec.eq_of_toNat_eq
    rw [BitVec.neg_one_eq_allOnes, BitVec.toNat_allOnes]
    omega
  by_cases hsubnormal : unpackExponent b = 0#_
  · rw [if_pos hsubnormal]
    by_cases hzero : unpackMantissa b = 0#_
    · rw [dif_pos hzero]
      exact trivial
    · rw [dif_neg hzero]
      constructor
      · rw [himplicit, Nat.pow_add]
        omega
      · rw [hsubnormal, BitVec.toNat_zero]
        unfold maxExponent
        omega
  · rw [if_neg hsubnormal]
    constructor
    · exact (1#1 ++ unpackMantissa b).isLt
    · unfold maxExponent
      omega

/-- A finite value times the reciprocal of the square root of two, given by its mantissa. -/
theorem isFinite_mul_packed (spec : Format) (hbits : 2 ≤ spec.exponentBits)
    (hmin : spec.minExponent ≤ maxExponent spec) {b : BitVec spec.numBits}
    (h : (UnpackedFloat.unpack spec b).isFinite = true) {v : UnpackedFloat} (sign : Sign) {c : ℕ}
    (pos : 0 < c) (hv : v = .finite sign c (-spec.mantissaBits) pos)
    (hc : c + 2 ≤ 2 ^ spec.mantissaBits) :
    (UnpackedFloat.unpack spec (UnpackedFloat.pack spec
      (mul spec (UnpackedFloat.unpack spec b) v))).isFinite = true := by
  have hformat := ofFormat_unpack hbits b
  generalize UnpackedFloat.unpack spec b = u at h hformat
  apply isFinite_packed
  rw [hv]
  cases u with
  | notANumber => cases h
  | infinity sign' => cases h
  | zero sign' => exact trivial
  | finite sign' m e pos' =>
    obtain ⟨hm, he⟩ := hformat
    exact atMost_roundWithAccuracy hm hc he hmin (sign' * sign)

end Binary

/-! ### The two floating point types -/

section Types

open Binary Float.Model

instance : ShrinkRules Float where
  isFinite_mul_invRootTwo {x} h :=
    isFinite_mul_packed .binary64 (by decide) (by decide) (b := x.toModel.toBits.toBitVec) h
      .positive (show 0 < 0x16A09E667F3BCD by decide) rfl (by decide)

instance : ShrinkRules Float32 where
  isFinite_mul_invRootTwo {x} h :=
    isFinite_mul_packed .binary32 (by decide) (by decide) (b := x.toModel.toBits.toBitVec) h
      .positive (show 0 < 0xB504F3 by decide) rfl (by decide)

end Types

end ConicSaddle
