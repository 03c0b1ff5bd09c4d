import LazyRegisters.Number.Magnitude
import Mathlib

/-!
# Sign and magnitude of binary64 numbers

A binary64 number is its sign and its magnitude, and it is put together from them again
(`ofMagnitude_magnitude`): whatever is not a number has the one magnitude `notANumberMagnitude` and
no sign. The magnitude tells what kind of number it is, and which numbers are equal, up to the sign
of zero.
-/

namespace LazyRegisters.Number

open Float.Model Float.Model.UnpackedFloat

/-! ## Packed numbers -/

section Packed

variable {w : BitVec 64}

theorem toNat_unpackMantissa (w : BitVec 64) :
    (@unpackMantissa Format.binary64 w).toNat = w.toNat % binade := by
  unfold unpackMantissa
  simp [binade]

theorem toNat_unpackExponent (w : BitVec 64) :
    (@unpackExponent Format.binary64 w).toNat = w.toNat / binade % 2048 := by
  unfold unpackExponent
  simp [binade, Nat.shiftRight_eq_div_pow]

theorem unpackExponent_eq_neg_one_iff :
    @unpackExponent Format.binary64 w = -1#_ ↔ infinity ≤ w.toNat % signBit := by
  have hones : (-BitVec.ofNat Format.binary64.exponentBits 1).toNat = 2047 := by decide
  rw [← BitVec.toNat_inj, toNat_unpackExponent, hones]
  unfold infinity signBit binade
  omega

theorem unpack_infinity_iff :
    @unpackExponent Format.binary64 w = -1#_ ∧ @unpackMantissa Format.binary64 w = 0#_ ↔
      w.toNat % signBit = infinity := by
  have hzero : (BitVec.ofNat Format.binary64.mantissaBitsWithoutImplicit 0).toNat = 0 := rfl
  rw [unpackExponent_eq_neg_one_iff, ← BitVec.toNat_inj, toNat_unpackMantissa, hzero]
  unfold infinity signBit binade
  omega

theorem isNaNBits_iff : @isNaNBits Format.binary64 w ↔ infinity < w.toNat % signBit := by
  have hinfinity := unpack_infinity_iff (w := w)
  have hones := unpackExponent_eq_neg_one_iff (w := w)
  unfold isNaNBits
  rw [decide_eq_true_eq]
  constructor
  · rintro ⟨hexponent, hmantissa⟩
    have hne : w.toNat % signBit ≠ infinity := fun h => hmantissa (hinfinity.2 h).2
    have := hones.1 hexponent
    omega
  · intro h
    have hexponent := hones.2 h.le
    exact ⟨hexponent, fun hmantissa => h.ne' (hinfinity.1 ⟨hexponent, hmantissa⟩)⟩

end Packed

/-! ## Numbers -/

section Number

variable {x y : Float} {b : Nat}

theorem magnitude_eq (x : Float) : magnitude x = x.toBits.toBitVec.toNat % signBit := rfl

theorem isNaN_iff : x.isNaN ↔ infinity < magnitude x := by
  have hvalid : Format.binary64.Valid x.toBits.toBitVec := x.toModel.valid
  have hdef : x.isNaN = (UnpackedFloat.unpack Format.binary64 x.toBits.toBitVec).isNaN := rfl
  rw [hdef, isNaN_unpack_iff_of_valid hvalid, magnitude_eq, ← isNaNBits_iff]
  constructor
  · intro h
    rw [h]
    exact isNaNBits_packedNaN
  · intro h
    obtain ⟨hexponent, hmantissa⟩ := of_decide_eq_true h
    exact hvalid.eq_packedNaN hexponent hmantissa

theorem isInf_iff : x.isInf ↔ magnitude x = infinity := by
  have hdef : x.isInf = (UnpackedFloat.unpack Format.binary64 x.toBits.toBitVec).isInf := rfl
  rw [hdef, magnitude_eq, ← unpack_infinity_iff]
  unfold UnpackedFloat.unpack
  dsimp only
  split
  · next hexponent =>
    split
    · next hmantissa => exact iff_of_true rfl ⟨hexponent, hmantissa⟩
    · next hmantissa => exact iff_of_false Bool.false_ne_true fun h => hmantissa h.2
  · next hexponent =>
    refine iff_of_false ?_ fun h => hexponent h.1
    split
    · split <;> exact Bool.false_ne_true
    · exact Bool.false_ne_true

theorem isFinite_iff : x.isFinite ↔ magnitude x < infinity := by
  have hdef : x.isFinite = (UnpackedFloat.unpack Format.binary64 x.toBits.toBitVec).isFinite := rfl
  rw [hdef, magnitude_eq, ← not_le, ← unpackExponent_eq_neg_one_iff]
  unfold UnpackedFloat.unpack
  dsimp only
  split
  · next hexponent =>
    refine iff_of_false ?_ (not_not_intro hexponent)
    split <;> exact Bool.false_ne_true
  · next hexponent =>
    refine iff_of_true ?_ hexponent
    split
    · split <;> rfl
    · rfl

/-! ## Sign and magnitude -/

theorem toBits_ofBits {a : UInt64} (h : a.toNat % signBit ≤ infinity) :
    (Float.ofBits a).toBits = a := by
  have hpack := @pack_unpack Format.binary64 a.toBitVec (by decide)
  have hnumber : ¬ @isNaNBits Format.binary64 a.toBitVec := by
    rw [isNaNBits_iff]
    exact not_lt.2 h
  rw [if_neg hnumber] at hpack
  exact UInt64.toBitVec_inj.1 hpack

theorem toBits_ofMagnitude (negative : Bool) (h : b ≤ infinity) :
    (ofMagnitude negative b).toBits.toNat = if negative then signBit + b else b := by
  have hword : (UInt64.ofNat (if negative then signBit + b else b)).toNat =
      if negative then signBit + b else b := by
    rw [UInt64.toNat_ofNat']
    unfold signBit infinity binade at *
    split <;> omega
  unfold ofMagnitude
  rw [toBits_ofBits, hword]
  rw [hword]
  unfold signBit infinity binade at *
  split <;> omega

theorem magnitude_ofMagnitude (negative : Bool) (h : b ≤ infinity) :
    magnitude (ofMagnitude negative b) = b := by
  unfold magnitude
  rw [toBits_ofMagnitude negative h]
  unfold signBit infinity binade at *
  split <;> omega

theorem isNegative_ofMagnitude (negative : Bool) (h : b ≤ infinity) :
    isNegative (ofMagnitude negative b) = negative := by
  unfold isNegative
  rw [toBits_ofMagnitude negative h]
  cases negative with
  | false =>
    rw [if_neg Bool.false_ne_true, decide_eq_false_iff_not]
    unfold signBit infinity binade at *
    omega
  | true =>
    rw [if_pos rfl, decide_eq_true_eq]
    omega

theorem eq_of_magnitude_eq (hsign : isNegative x = isNegative y)
    (hmagnitude : magnitude x = magnitude y) : x = y := by
  refine Float.toBits_inj.1 (UInt64.toNat_inj.1 ?_)
  have hx := x.toBits.toNat_lt
  have hy := y.toBits.toNat_lt
  have hiff : signBit ≤ x.toBits.toNat ↔ signBit ≤ y.toBits.toNat := by
    rw [← decide_eq_decide]
    exact hsign
  unfold magnitude signBit at *
  omega

/-- A number is put together again from its sign and its magnitude. -/
theorem ofMagnitude_magnitude (h : magnitude x ≤ infinity) :
    ofMagnitude (isNegative x) (magnitude x) = x :=
  eq_of_magnitude_eq (isNegative_ofMagnitude _ h) (magnitude_ofMagnitude _ h)

theorem isNaN_iff_eq_nan : x.isNaN ↔ x = Float.nan := by
  rw [Float.isNaN_eq_decide_eq_nan, decide_eq_true_eq]

/-- What is not a number is all the same. -/
theorem eq_notANumber (h : infinity < magnitude x) : x = ofMagnitude false notANumberMagnitude := by
  have hsame {y : Float} (hy : infinity < magnitude y) : y = Float.nan :=
    isNaN_iff_eq_nan.1 (isNaN_iff.2 hy)
  have hother : infinity < magnitude (ofMagnitude false notANumberMagnitude) := by decide
  rw [hsame h, hsame hother]

/-! ## Equal numbers -/

theorem zero_eq : (0 : Float) = ofMagnitude false 0 := rfl

theorem magnitude_eq_zero_iff : magnitude x = 0 ↔ x = 0 ∨ x = -0 := by
  have hzero : magnitude 0 = 0 ∧ isNegative 0 = false := ⟨rfl, rfl⟩
  have hnegative : magnitude (-0) = 0 ∧ isNegative (-0) = true := ⟨rfl, rfl⟩
  constructor
  · intro h
    cases hsign : isNegative x with
    | false => exact .inl (eq_of_magnitude_eq (by rw [hsign, hzero.2]) (by rw [h, hzero.1]))
    | true => exact .inr (eq_of_magnitude_eq (by rw [hsign, hnegative.2]) (by rw [h, hnegative.1]))
  · rintro (rfl | rfl)
    · exact hzero.1
    · exact hnegative.1

/-- Numbers are equal if they are the same or both are zero. -/
theorem beq_iff : x == y ↔
    magnitude x ≤ infinity ∧ (x = y ∨ magnitude x = 0 ∧ magnitude y = 0) := by
  -- The library's statement names the two zeros.
  have hnumber (z : Float) : z ≠ Float.nan ↔ magnitude z ≤ infinity := by
    rw [Ne, ← isNaN_iff_eq_nan, isNaN_iff, not_lt]
  rw [Float.beq_iff_ne_nan_and_eq, hnumber, hnumber]
  constructor
  · rintro ⟨hx, -, hxy | ⟨rfl, rfl⟩ | ⟨rfl, rfl⟩⟩
    · exact ⟨hx, .inl hxy⟩
    · exact ⟨hx, .inr ⟨rfl, rfl⟩⟩
    · exact ⟨hx, .inr ⟨rfl, rfl⟩⟩
  · rintro ⟨hx, rfl | ⟨hx', hy'⟩⟩
    · exact ⟨hx, hx, .inl rfl⟩
    · refine ⟨hx, by omega, ?_⟩
      rcases magnitude_eq_zero_iff.1 hx' with rfl | rfl <;>
        rcases magnitude_eq_zero_iff.1 hy' with rfl | rfl
      · exact .inl rfl
      · exact .inr (.inl ⟨rfl, rfl⟩)
      · exact .inr (.inr ⟨rfl, rfl⟩)
      · exact .inl rfl

theorem beq_zero_iff : x == 0 ↔ magnitude x = 0 := by
  have hzero : magnitude 0 = 0 := rfl
  rw [beq_iff, hzero]
  constructor
  · rintro ⟨-, rfl | ⟨h, -⟩⟩
    · exact hzero
    · exact h
  · intro h
    exact ⟨by omega, .inr ⟨h, rfl⟩⟩

end Number

end LazyRegisters.Number
