import LazyRegisters.Proofs.Binary64
import LazyRegisters.Proofs.Rounding

/-!
# The exact value of a binary64 number

The library takes a binary64 number apart into a sign, a mantissa and an exponent, and so tells what
rational number it is (`rational?`) and which of two numbers is the less. Both are told by sign and
magnitude as well: a finite number is the value of its magnitude with the sign (`rational?_eq`), and
numbers stand in the order of their magnitudes with the signs (`le_iff`).
-/

namespace LazyRegisters.Number

open Float.Model Float.Model.UnpackedFloat

def withSign (negative : Bool) (q : ℚ) : ℚ := if negative then -q else q

/-- The rational number that a finite number is. -/
def rational? (x : Float) : Option ℚ :=
  match x.toModel.unpack with
  | .infinity _ | .notANumber => none
  | .zero _ => some 0
  | .finite sign mantissa exponent _ => some (sign.apply mantissa * 2 ^ exponent)

/-! ## Taking numbers apart -/

/-- The sign as the library has it. -/
def signOf (negative : Bool) : Sign := if negative then .negative else .positive

/-- What the library takes a number of this sign and this magnitude apart into. -/
inductive UnpacksTo (sign : Sign) : Nat → UnpackedFloat → Prop where
  | zero : UnpacksTo sign 0 (.zero sign)
  | finite {b : Nat} (hpos : 0 < b) (h : b < infinity) (hmantissa : 0 < significand b) :
      UnpacksTo sign b (.finite sign (significand b) (doublings b - 1074) hmantissa)
  | infinity : UnpacksTo sign infinity (.infinity sign)

section Unpack

variable {x y : Float} {a b : Nat} {s : Sign} {u v : UnpackedFloat}

theorem ofBitVec_unpackSign (x : Float) :
    Sign.ofBitVec (@unpackSign Format.binary64 x.toBits.toBitVec) = signOf (isNegative x) := by
  have hbit : (@unpackSign Format.binary64 x.toBits.toBitVec).toNat =
      x.toBits.toNat / signBit % 2 := by
    unfold unpackSign
    simp [signBit, Nat.shiftRight_eq_div_pow]
  have hlt := x.toBits.toNat_lt
  have hzero : @unpackSign Format.binary64 x.toBits.toBitVec = 0#1 ↔
      ¬ signBit ≤ x.toBits.toNat := by
    rw [← BitVec.toNat_inj, hbit, BitVec.toNat_zero]
    unfold signBit
    omega
  unfold Sign.ofBitVec signOf isNegative
  by_cases h : signBit ≤ x.toBits.toNat
  · rw [if_neg fun hsign => hzero.1 hsign h, decide_eq_true h, if_pos rfl]
  · rw [if_pos (hzero.2 h), decide_eq_false h, if_neg Bool.false_ne_true]

theorem toNat_fields (x : Float) :
    (@unpackExponent Format.binary64 x.toBits.toBitVec).toNat = magnitude x / binade ∧
      (@unpackMantissa Format.binary64 x.toBits.toBitVec).toNat = magnitude x % binade := by
  rw [toNat_unpackExponent, toNat_unpackMantissa, magnitude_eq]
  unfold signBit binade
  omega

theorem UnpacksTo.of_eq {m : Nat} {e : Int} (hpos : 0 < b) (h : b < Number.infinity)
    (hm : m = significand b) (he : e = doublings b - 1074) (hmantissa : 0 < m) :
    UnpacksTo s b (.finite s m e hmantissa) := by
  subst hm he
  exact .finite hpos h hmantissa

theorem unpacksTo_of_finite (h : magnitude x < infinity) :
    UnpacksTo (signOf (isNegative x)) (magnitude x) x.toModel.unpack := by
  have hones : @unpackExponent Format.binary64 x.toBits.toBitVec ≠ -1#_ :=
    fun hall => (unpackExponent_eq_neg_one_iff.1 hall).not_gt h
  have hbias : ((Format.binary64.exponentBias : Nat) : Int) = 1023 := by decide
  obtain ⟨hexponent, hmantissa⟩ := toNat_fields x
  show UnpacksTo _ _ (UnpackedFloat.unpack Format.binary64 x.toBits.toBitVec)
  generalize magnitude x = b at h hexponent hmantissa ⊢
  unfold UnpackedFloat.unpack
  dsimp only
  rw [if_neg hones, ofBitVec_unpackSign, hexponent, hbias]
  split
  · next hsubnormal =>
    have hzero : b / binade = 0 := by
      rw [← hexponent, hsubnormal]
      rfl
    have hlt : b < binade := (Nat.div_eq_zero_iff.1 hzero).resolve_left (by decide)
    rw [Nat.mod_eq_of_lt hlt] at hmantissa
    split
    · next hnone =>
      obtain rfl : b = 0 := by
        rw [← hmantissa, hnone]
        rfl
      exact .zero
    · next hsome =>
      have hpos : 0 < b := by
        rw [← hmantissa]
        exact (BitVec.toNat_pos _).2 ((BitVec.pos_iff_ne_zero _).2 hsome)
      refine UnpacksTo.of_eq hpos h ?_ ?_ _
      · rw [hmantissa, significand, if_pos hlt]
      · rw [doublings, hzero]
        rfl
  · next hnormal =>
    have hdiv : 0 < b / binade := by
      rw [← hexponent]
      exact (BitVec.toNat_pos _).2 ((BitVec.pos_iff_ne_zero _).2 hnormal)
    obtain ⟨hbinade, hle⟩ := Nat.div_pos_iff.1 hdiv
    refine UnpacksTo.of_eq (hbinade.trans_le hle) h ?_ ?_ _
    · -- The leading bit is not stored.
      rw [BitVec.toNat_append, ← Nat.shiftLeft_add_eq_or_of_lt (BitVec.isLt _), hmantissa,
        significand, if_neg (not_lt.2 hle), Nat.add_comm]
      rfl
    · unfold doublings
      omega

theorem unpacksTo_unpack (h : magnitude x ≤ infinity) :
    UnpacksTo (signOf (isNegative x)) (magnitude x) x.toModel.unpack := by
  rcases h.lt_or_eq with hlt | heq
  · exact unpacksTo_of_finite hlt
  · obtain ⟨hexponent, hmantissa⟩ := unpack_infinity_iff.2 heq
    show UnpacksTo _ _ (UnpackedFloat.unpack Format.binary64 x.toBits.toBitVec)
    unfold UnpackedFloat.unpack
    dsimp only
    rw [if_pos hexponent, if_pos hmantissa, ofBitVec_unpackSign, heq]
    exact .infinity

/-! ## Values -/

theorem cast_one_shiftLeft (n : Nat) : ((1 <<< n : Nat) : ℚ) = 2 ^ (n : Int) := by
  rw [Nat.one_shiftLeft, Nat.cast_pow, zpow_natCast]
  rfl

theorem value_eq_zpow (b : Nat) : value b = significand b * 2 ^ ((doublings b : Int) - 1074) := by
  have hone : (unitsOfOne : ℚ) = 2 ^ (1074 : Int) := cast_one_shiftLeft 1074
  rw [value, units_eq, hone, zpow_sub₀ (by norm_num), zpow_natCast, Nat.cast_mul, Nat.cast_pow,
    mul_div_assoc]
  rfl

theorem apply_signOf (negative : Bool) (n : Int) :
    ((signOf negative).apply n : ℚ) = withSign negative n := by
  cases negative with
  | false => rfl
  | true => exact Int.cast_neg n

theorem withSign_mul (negative : Bool) (q r : ℚ) :
    withSign negative q * r = withSign negative (q * r) := by
  cases negative with
  | false => rfl
  | true => exact neg_mul q r

theorem withSign_withSign (negative : Bool) (q : ℚ) :
    withSign negative (withSign negative q) = q := by
  cases negative with
  | false => rfl
  | true => exact neg_neg q

theorem withSign_zero (negative : Bool) : withSign negative 0 = 0 := by
  cases negative with
  | false => rfl
  | true => exact neg_zero

/-- A finite number is the value of its magnitude, with the sign. -/
theorem rational?_eq (h : magnitude x < infinity) :
    rational? x = some (withSign (isNegative x) (value (magnitude x))) := by
  have hunpack := unpacksTo_of_finite h
  unfold rational?
  generalize x.toModel.unpack = u at hunpack ⊢
  generalize magnitude x = b at h hunpack ⊢
  cases hunpack with
  | zero => rw [value_zero, withSign_zero]
  | finite hpos _ _ =>
    dsimp only
    rw [apply_signOf, withSign_mul, Int.cast_natCast, ← value_eq_zpow]
  | infinity => exact absurd h (Nat.lt_irrefl _)

theorem rational?_ofMagnitude (negative : Bool) (h : b < infinity) :
    rational? (ofMagnitude negative b) = some (withSign negative (value b)) := by
  have hmagnitude := magnitude_ofMagnitude negative h.le
  rw [rational?_eq (by rwa [hmagnitude]), isNegative_ofMagnitude negative h.le, hmagnitude]

theorem lt_infinity_of_rational? {q : ℚ} (h : rational? x = some q) : magnitude x < infinity := by
  refine isFinite_iff.1 ?_
  show x.toModel.unpack.isFinite = true
  unfold rational? at h
  generalize x.toModel.unpack = u at h ⊢
  cases u with
  | infinity s => cases h
  | notANumber => cases h
  | zero s => rfl
  | finite s m e _ => rfl

theorem eq_of_rational? {q : ℚ} (h : rational? x = some q) :
    q = withSign (isNegative x) (value (magnitude x)) :=
  Option.some.inj (h.symm.trans (rational?_eq (lt_infinity_of_rational? h)))

/-! ## Order -/

def ordinal (x : Float) : Int := if isNegative x then -magnitude x else magnitude x

theorem doublings_mono (h : a ≤ b) : doublings a ≤ doublings b :=
  Nat.sub_le_sub_right (Nat.div_le_div_right h) 1

/-- Magnitudes are compared by their doublings first. -/
theorem compare_doublings (a b : Nat) :
    (compare ((doublings a : Int) - 1074) ((doublings b : Int) - 1074)).then
      (compare (significand a) (significand b)) = compare a b := by
  have ha := significand_add_doublings a
  have hb := significand_add_doublings b
  rcases Nat.lt_trichotomy (doublings a) (doublings b) with hlt | heq | hlt
  · have hab : a < b := by
      by_contra hle
      exact absurd (doublings_mono (not_lt.1 hle)) (not_le.2 hlt)
    rw [Int.compare_eq_lt.2 (by omega), Nat.compare_eq_lt.2 hab]
    rfl
  · rw [heq, Int.compare_eq_eq.2 rfl]
    rw [heq] at ha
    rcases Nat.lt_trichotomy a b with hab | rfl | hab
    · rw [Nat.compare_eq_lt.2 hab, Nat.compare_eq_lt.2 (by omega)]
      rfl
    · rw [Nat.compare_eq_eq.2 rfl, Nat.compare_eq_eq.2 rfl]
      rfl
    · rw [Nat.compare_eq_gt.2 hab, Nat.compare_eq_gt.2 (by omega)]
      rfl
  · have hab : b < a := by
      by_contra hle
      exact absurd (doublings_mono (not_lt.1 hle)) (not_le.2 hlt)
    rw [Int.compare_eq_gt.2 (by omega), Nat.compare_eq_gt.2 hab]
    rfl

/-- Turning the signs around turns the order around. -/
theorem compare_neg (u v : UnpackedFloat) : u.neg.compare v.neg = v.compare u := by
  have hswap (e e' : Int) (m m' : Nat) : ((compare e e').then (compare m m')).swap =
      (compare e' e).then (compare m' m) := by
    rw [Ordering.swap_then, Int.compare_swap, Nat.compare_swap]
  rcases u with s | - | s | ⟨s, m, e⟩
  · rcases s <;> rcases v with (_ | _) | _ | _ | _ <;> rfl
  · cases v <;> rfl
  · rcases v with (_ | _) | _ | _ | (_ | _) <;> rfl
  · rcases v with s' | - | s' | ⟨s', m', e'⟩
    · cases s <;> cases s' <;> rfl
    · rfl
    · cases s <;> rfl
    · cases s <;> cases s'
      · exact congrArg some (hswap e' e m' m).symm
      · rfl
      · rfl
      · exact congrArg some (hswap e e' m m')

theorem UnpacksTo.compare_positive (h : UnpacksTo .positive a u) (h' : UnpacksTo .positive b v) :
    u.compare v = some (compare a b) := by
  have hinfinity : 0 < Number.infinity := by decide
  cases h with
  | zero =>
    cases h' with
    | zero => rfl
    | finite hpos _ _ => rw [Nat.compare_eq_lt.2 hpos]; rfl
    | infinity => rw [Nat.compare_eq_lt.2 hinfinity]; rfl
  | finite hpos hlt _ =>
    cases h' with
    | zero => rw [Nat.compare_eq_gt.2 hpos]; rfl
    | finite _ _ _ => rw [← compare_doublings]; rfl
    | infinity => rw [Nat.compare_eq_lt.2 hlt]; rfl
  | infinity =>
    cases h' with
    | zero => rw [Nat.compare_eq_gt.2 hinfinity]; rfl
    | finite _ hlt _ => rw [Nat.compare_eq_gt.2 hlt]; rfl
    | infinity => rw [Nat.compare_eq_eq.2 rfl]; rfl

theorem UnpacksTo.neg (h : UnpacksTo .negative b u) : UnpacksTo .positive b u.neg := by
  cases h with
  | zero => exact .zero
  | finite hpos hlt hmantissa => exact .finite hpos hlt hmantissa
  | infinity => exact .infinity

theorem UnpacksTo.le_of_signs (h : UnpacksTo .negative a u) (h' : UnpacksTo .positive b v) :
    u.le v := by
  cases h <;> cases h' <;> rfl

/-- Only where both are zero is what is positive not greater than what is negative. -/
theorem UnpacksTo.le_iff_of_signs (h : UnpacksTo .positive a u) (h' : UnpacksTo .negative b v) :
    u.le v ↔ a = 0 ∧ b = 0 := by
  have hinfinity : Number.infinity ≠ 0 := by decide
  cases h with
  | zero =>
    cases h' with
    | zero => exact iff_of_true rfl ⟨rfl, rfl⟩
    | finite hpos _ _ => exact iff_of_false Bool.false_ne_true fun hzero => hpos.ne' hzero.2
    | infinity => exact iff_of_false Bool.false_ne_true fun hzero => hinfinity hzero.2
  | finite hpos _ _ =>
    refine iff_of_false ?_ fun hzero => hpos.ne' hzero.1
    cases h' <;> exact Bool.false_ne_true
  | infinity =>
    refine iff_of_false ?_ fun hzero => hinfinity hzero.1
    cases h' <;> exact Bool.false_ne_true

/-- Numbers stand in the order of their magnitudes with the signs. -/
theorem le_iff (hx : magnitude x ≤ infinity) (hy : magnitude y ≤ infinity) :
    x ≤ y ↔ ordinal x ≤ ordinal y := by
  have hle : x ≤ y ↔ x.toModel.unpack.le y.toModel.unpack := by
    show decide (x.toModel.unpack.le y.toModel.unpack = true) = true ↔ _
    rw [decide_eq_true_eq]
  have hu := unpacksTo_unpack hx
  have hv := unpacksTo_unpack hy
  rw [hle]
  unfold ordinal
  generalize isNegative x = n at hu ⊢
  generalize isNegative y = n' at hv ⊢
  cases n with
  | false =>
    cases n' with
    | false =>
      have hcompare := hu.compare_positive hv
      unfold UnpackedFloat.le
      rw [hcompare, Option.any_some, Nat.isLE_compare, if_neg Bool.false_ne_true,
        if_neg Bool.false_ne_true]
      omega
    | true =>
      rw [hu.le_iff_of_signs hv, if_neg Bool.false_ne_true, if_pos rfl]
      omega
  | true =>
    cases n' with
    | false =>
      refine iff_of_true (hu.le_of_signs hv) ?_
      rw [if_neg Bool.false_ne_true, if_pos rfl]
      omega
    | true =>
      have hcompare := hv.neg.compare_positive hu.neg
      rw [compare_neg] at hcompare
      unfold UnpackedFloat.le
      rw [hcompare, Option.any_some, Nat.isLE_compare, if_pos rfl, if_pos rfl]
      omega

end Unpack

end LazyRegisters.Number
