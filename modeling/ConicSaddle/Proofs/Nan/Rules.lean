import ConicSaddle.Proofs.Ldl.Record

/-!
# Rules for values that are no numbers

What the algorithms need to know of a NaN: every operation of arithmetic passes it on, it is neither
zero nor finite, and the magnitude of any other value reaches the threshold of a column of zeros.

* `NaNRules`: the rules, with instances for the two binary floating point types;
* `unpack_packComponents`: a floating point value from its sign, exponent and mantissa.
-/

namespace ConicSaddle

open Scalar (isNaN)

/-- The rules for values that are no numbers. -/
class NaNRules (α : Type) [Scalar α] : Prop where
  add_left {x : α} (h : isNaN x = true) (y : α) : isNaN (x + y) = true
  add_right (x : α) {y : α} (h : isNaN y = true) : isNaN (x + y) = true
  sub_left {x : α} (h : isNaN x = true) (y : α) : isNaN (x - y) = true
  sub_right (x : α) {y : α} (h : isNaN y = true) : isNaN (x - y) = true
  mul_left {x : α} (h : isNaN x = true) (y : α) : isNaN (x * y) = true
  mul_right (x : α) {y : α} (h : isNaN y = true) : isNaN (x * y) = true
  div_left {x : α} (h : isNaN x = true) (y : α) : isNaN (x / y) = true
  div_right (x : α) {y : α} (h : isNaN y = true) : isNaN (x / y) = true
  abs {x : α} (h : isNaN x = true) : isNaN (Scalar.abs x) = true
  isZero {x : α} (h : isNaN x = true) : Scalar.isZero x = false
  isFinite {x : α} (h : isNaN x = true) : Scalar.isFinite x = false
  threshold_le {x : α} (h : isNaN x = false) :
    Scalar.le (Ldl.threshold * 0) (Scalar.abs x) = true

/-- Where a NaN is passed on, a pivot of order two is kept out of the last column. -/
instance {α : Type} [Scalar α] [NaNRules α] : Ldl.PivotRules α where
  threshold_zero_le x h := by
    apply NaNRules.threshold_le
    cases hx : isNaN x with
    | false => rfl
    | true => rw [NaNRules.abs hx] at h; exact h

/-! ### Unpacked floating point values -/

namespace Binary

open Float.Model Float.Model.UnpackedFloat

variable {spec : Format}

theorem eq_notANumber {u : UnpackedFloat} (h : u.isNaN = true) : u = .notANumber := by
  cases u with
  | notANumber => rfl
  | infinity sign => cases h
  | zero sign => cases h
  | finite sign mantissa exponent pos => cases h

theorem add_right (x : UnpackedFloat) : add spec x .notANumber = .notANumber := by
  cases x <;> rfl

theorem sub_right (x : UnpackedFloat) : sub spec x .notANumber = .notANumber := by
  cases x <;> rfl

theorem mul_right (x : UnpackedFloat) : mul spec x .notANumber = .notANumber := by
  cases x <;> rfl

theorem div_right (x : UnpackedFloat) : div spec x .notANumber = .notANumber := by
  cases x <;> rfl

theorem unpackSign_packComponents (sign : Sign) (exponent : BitVec spec.exponentBits)
    (mantissa : BitVec spec.mantissaBitsWithoutImplicit) :
    unpackSign (packComponents spec sign exponent mantissa) = sign.toBitVec := by
  unfold unpackSign packComponents
  ext i hi
  obtain rfl := Nat.lt_one_iff.mp hi
  rw [BitVec.getElem_cast, ← BitVec.getLsbD_eq_getElem, BitVec.getLsbD_extractLsb, Nat.add_zero,
    BitVec.getLsbD_append, BitVec.getLsbD_append]
  simp

/-- A value that is at least zero: positive, or zero of either sign. -/
def AtLeastZero : UnpackedFloat → Prop
  | .infinity .positive => True
  | .zero _ => True
  | .finite .positive _ _ _ => True
  | _ => False

theorem zero_le {sign : Sign} {u : UnpackedFloat} (h : AtLeastZero u) :
    UnpackedFloat.le (.zero sign) u = true := by
  cases u with
  | notANumber => exact h.elim
  | zero sign' => rfl
  | infinity sign' =>
    cases sign' with
    | negative => exact h.elim
    | positive => rfl
  | finite sign' mantissa exponent pos =>
    cases sign' with
    | negative => exact h.elim
    | positive => rfl

/-- A value put together with a positive sign is at least zero, unless it is a NaN. -/
theorem unpack_packComponents (exponent : BitVec spec.exponentBits)
    (mantissa : BitVec spec.mantissaBitsWithoutImplicit)
    (h : exponent = -1#_ → mantissa = 0#_) :
    AtLeastZero (UnpackedFloat.unpack spec (packComponents spec .positive exponent mantissa)) := by
  have hsign : Sign.ofBitVec (unpackSign (packComponents spec .positive exponent mantissa)) =
      .positive := by
    rw [unpackSign_packComponents]
    rfl
  unfold UnpackedFloat.unpack
  dsimp only
  rw [hsign, unpackExponent_packComponents]
  by_cases hones : exponent = -1#_
  · rw [if_pos hones, unpackMantissa_packComponents, if_pos (h hones)]
    exact trivial
  rw [if_neg hones]
  by_cases hexponent : exponent = 0#_
  · rw [if_pos hexponent]
    by_cases hmantissa :
        unpackMantissa (packComponents spec .positive exponent mantissa) = 0#_
    · rw [dif_pos hmantissa]
      exact trivial
    · rw [dif_neg hmantissa]
      exact trivial
  · rw [if_neg hexponent]
    exact trivial

/-- A magnitude that is no NaN is at least zero, also after it was packed. -/
theorem atLeastZero_abs {u : UnpackedFloat} (h : u.isNaN = false) :
    AtLeastZero (UnpackedFloat.unpack spec (UnpackedFloat.pack spec u.abs)) := by
  cases u with
  | notANumber => cases h
  | infinity sign => exact unpack_packComponents _ _ fun _ => rfl
  | zero sign =>
    apply unpack_packComponents
    intro _
    rfl
  | finite sign mantissa exponent pos =>
    show AtLeastZero (UnpackedFloat.unpack spec (if _ then _ else if _ then _ else _))
    split
    · exact unpack_packComponents _ _ fun _ => rfl
    · next hsmall =>
      have hpow := Nat.two_pow_pos spec.exponentBits
      split
      · apply unpack_packComponents
        intro hones
        have hnat := congrArg BitVec.toNat hones
        rw [BitVec.toNat_ofNat, BitVec.neg_one_eq_allOnes, BitVec.toNat_allOnes,
          Nat.mod_eq_of_lt (by omega)] at hnat
        omega
      · apply unpack_packComponents
        intro hones
        have hnat := congrArg BitVec.toNat hones
        have hbits := Nat.one_lt_two_pow (Nat.pos_iff_ne_zero.mp spec.he)
        rw [BitVec.neg_one_eq_allOnes, BitVec.toNat_allOnes, BitVec.toNat_zero] at hnat
        omega

/-- The value is a zero. -/
def IsZero : UnpackedFloat → Bool
  | .zero _ => true
  | _ => false

/-- No zero is above a magnitude that is no NaN. -/
theorem le_packed_abs {z u : UnpackedFloat} (hz : IsZero z = true) (h : u.isNaN = false) :
    UnpackedFloat.le z (UnpackedFloat.unpack spec (UnpackedFloat.pack spec u.abs)) = true := by
  cases z with
  | zero sign => exact zero_le (atLeastZero_abs h)
  | notANumber => cases hz
  | infinity sign => cases hz
  | finite sign mantissa exponent pos => cases hz

end Binary

/-! ### The two floating point types -/

section Types

open Binary Float.Model

/-! The arithmetic of both types is that of unpacked values, packed again. -/

theorem isNaN_pack_float {x : Float.Model} (h : x = .pack .notANumber) : x.isNaN = true := by
  rw [h]
  decide +kernel

theorem isNaN_pack_float32 {x : Float32.Model} (h : x = .pack .notANumber) : x.isNaN = true := by
  rw [h]
  decide +kernel

theorem unpack_float {x : Float} (h : isNaN x = true) : x.toModel.unpack = .notANumber :=
  eq_notANumber h

theorem unpack_float32 {x : Float32} (h : isNaN x = true) : x.toModel.unpack = .notANumber :=
  eq_notANumber h

theorem zero_le_float {z x : Float} (hz : IsZero z.toModel.unpack = true) (h : isNaN x = false) :
    Scalar.le z (Scalar.abs x) = true := by
  have hle : z.toModel.le x.toModel.abs = true := le_packed_abs hz h
  have hfloat : z.le x.abs = true := decide_eq_true hle
  exact decide_eq_true hfloat

theorem zero_le_float32 {z x : Float32} (hz : IsZero z.toModel.unpack = true)
    (h : isNaN x = false) : Scalar.le z (Scalar.abs x) = true := by
  have hle : z.toModel.le x.toModel.abs = true := le_packed_abs hz h
  have hfloat : z.le x.abs = true := decide_eq_true hle
  exact decide_eq_true hfloat

instance : NaNRules Float where
  add_left h y := isNaN_pack_float (congrArg Float.Model.pack (by rw [unpack_float h]; rfl))
  add_right x y h := isNaN_pack_float
    (congrArg Float.Model.pack (by rw [unpack_float h]; exact add_right _))
  sub_left h y := isNaN_pack_float (congrArg Float.Model.pack (by rw [unpack_float h]; rfl))
  sub_right x y h := isNaN_pack_float
    (congrArg Float.Model.pack (by rw [unpack_float h]; exact sub_right _))
  mul_left h y := isNaN_pack_float (congrArg Float.Model.pack (by rw [unpack_float h]; rfl))
  mul_right x y h := isNaN_pack_float
    (congrArg Float.Model.pack (by rw [unpack_float h]; exact mul_right _))
  div_left h y := isNaN_pack_float (congrArg Float.Model.pack (by rw [unpack_float h]; rfl))
  div_right x y h := isNaN_pack_float
    (congrArg Float.Model.pack (by rw [unpack_float h]; exact div_right _))
  abs h := isNaN_pack_float (congrArg Float.Model.pack (by rw [unpack_float h]; rfl))
  isZero {x} h := by
    show UnpackedFloat.beq x.toModel.unpack _ = false
    rw [unpack_float h]
    rfl
  isFinite {x} h := by
    show x.toModel.unpack.isFinite = false
    rw [unpack_float h]
    rfl
  threshold_le h := zero_le_float (by decide +kernel) h

instance : NaNRules Float32 where
  add_left h y := isNaN_pack_float32 (congrArg Float32.Model.pack (by rw [unpack_float32 h]; rfl))
  add_right x y h := isNaN_pack_float32
    (congrArg Float32.Model.pack (by rw [unpack_float32 h]; exact add_right _))
  sub_left h y := isNaN_pack_float32 (congrArg Float32.Model.pack (by rw [unpack_float32 h]; rfl))
  sub_right x y h := isNaN_pack_float32
    (congrArg Float32.Model.pack (by rw [unpack_float32 h]; exact sub_right _))
  mul_left h y := isNaN_pack_float32 (congrArg Float32.Model.pack (by rw [unpack_float32 h]; rfl))
  mul_right x y h := isNaN_pack_float32
    (congrArg Float32.Model.pack (by rw [unpack_float32 h]; exact mul_right _))
  div_left h y := isNaN_pack_float32 (congrArg Float32.Model.pack (by rw [unpack_float32 h]; rfl))
  div_right x y h := isNaN_pack_float32
    (congrArg Float32.Model.pack (by rw [unpack_float32 h]; exact div_right _))
  abs h := isNaN_pack_float32 (congrArg Float32.Model.pack (by rw [unpack_float32 h]; rfl))
  isZero {x} h := by
    show UnpackedFloat.beq x.toModel.unpack _ = false
    rw [unpack_float32 h]
    rfl
  isFinite {x} h := by
    show x.toModel.unpack.isFinite = false
    rw [unpack_float32 h]
    rfl
  threshold_le h := zero_le_float32 (by decide +kernel) h

end Types

end ConicSaddle
