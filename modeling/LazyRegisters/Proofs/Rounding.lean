import LazyRegisters.Number.Decimal
import Mathlib.Algebra.Order.Field.Power
import Mathlib.Algebra.Order.Field.Rat
import Mathlib.Data.Rat.Cast.Order
import Mathlib.Tactic.FieldSimp
import Mathlib.Tactic.Linarith
import Mathlib.Tactic.Positivity
import Mathlib.Tactic.Ring

/-!
# What rounds to a magnitude

The value of a magnitude is a rational number, and half way between two neighbouring magnitudes lies
their midpoint. Rounding to nearest is told by the midpoints alone: a number goes beyond the
magnitude `b` if it lies above the midpoint of `b` and `b + 1`, or on it and `b` is the odd one of
the two (`Exceeds`). It rounds to the magnitude that it does not exceed but all smaller ones are
exceeded (`RoundsTo`), and there is one such magnitude.

`nearest` finds it for a quotient (`roundsTo_nearest`), and so does `Decimal.magnitude` for a
decimal (`Decimal.roundsTo_magnitude`), whatever its exponent.
-/

namespace LazyRegisters.Number

/-! ## Units -/

theorem units_eq (b : Nat) : units b = significand b * 2 ^ doublings b := Nat.shiftLeft_eq _ _

theorem units_of_normal {s : Nat} (hs : s < binade) (k : Nat) :
    units (s + binade * (k + 1)) = (binade + s) * 2 ^ k := by
  have hpos : 0 < binade := by decide
  have hlt : ¬ s + binade * (k + 1) < binade := by
    rw [Nat.mul_add]
    omega
  rw [units_eq, significand, doublings, if_neg hlt, Nat.add_mul_mod_self_left, Nat.mod_eq_of_lt hs,
    Nat.add_mul_div_left _ _ hpos, Nat.div_eq_of_lt hs, Nat.zero_add, Nat.add_sub_cancel,
    Nat.add_comm s]

/-- From one power of two to the next, both included, the significand is doubled equally often. -/
theorem units_add {r : Nat} (hlow : binade ≤ r) (hhigh : r ≤ 2 * binade) (h : Nat) :
    units (r + h * binade) = r * 2 ^ h := by
  rcases Nat.lt_or_ge r (2 * binade) with hr | hr
  · have hb : r + h * binade = (r - binade) + binade * (h + 1) := by
      rw [Nat.mul_add, Nat.mul_comm binade]
      omega
    rw [hb, units_of_normal (by omega), Nat.add_sub_cancel' hlow]
  · have hr : r = 2 * binade := by omega
    have hb : r + h * binade = 0 + binade * (h + 1 + 1) := by
      rw [hr]
      ring
    rw [hb, units_of_normal (by decide), hr]
    ring

/-- A magnitude is its leading bits and the doublings of them. -/
theorem significand_add_doublings (b : Nat) : significand b + doublings b * binade = b := by
  have hdiv := Nat.div_add_mod b binade
  unfold significand doublings
  split
  · next h => rw [Nat.div_eq_of_lt h]; omega
  · next h =>
    have hpos : 1 ≤ b / binade := (Nat.one_le_div_iff (by decide)).2 (by omega)
    rw [Nat.sub_mul, Nat.mul_comm (b / binade)]
    have : 1 * binade ≤ binade * (b / binade) := by
      rw [Nat.mul_comm]
      exact Nat.mul_le_mul_left binade hpos
    omega

theorem binade_le_significand {b : Nat} (h : binade ≤ b) : binade ≤ significand b := by
  unfold significand
  split <;> omega

/-- The next magnitude is one more of what its leading bits count. -/
theorem units_succ (b : Nat) : units (b + 1) = units b + 2 ^ doublings b := by
  rcases Nat.lt_or_ge b binade with h | h
  · have hzero : doublings b = 0 := by rw [doublings, Nat.div_eq_of_lt h]
    rw [units_of_lt h, hzero, pow_zero]
    rcases Nat.lt_or_ge (b + 1) binade with h' | h'
    · exact units_of_lt h'
    · have hb : b + 1 = binade := by omega
      rw [hb]
      exact units_add (Nat.le_refl _) (by decide) 0
  · have hlow := binade_le_significand h
    have hhigh := significand_lt b
    have hb : b + 1 = (significand b + 1) + doublings b * binade := by
      have := significand_add_doublings b
      omega
    rw [hb, units_add (by omega) (by omega), units_eq]
    ring

theorem units_strictMono : StrictMono units := by
  refine strictMono_nat_of_lt_succ fun b => ?_
  rw [units_succ]
  exact Nat.lt_add_of_pos_right (Nat.two_pow_pos _)

theorem units_zero : units 0 = 0 := by decide

theorem units_pos {b : Nat} (h : 0 < b) : 0 < units b := by
  rw [← units_zero]
  exact units_strictMono h

/-! ## Values and midpoints -/

theorem unitsOfOne_pos : (0 : ℚ) < unitsOfOne := by
  have hpos : 0 < unitsOfOne := by
    rw [unitsOfOne, Nat.one_shiftLeft]
    exact Nat.two_pow_pos 1074
  exact_mod_cast hpos

/-- The number that a magnitude stands for. -/
def value (b : Nat) : ℚ := units b / unitsOfOne

/-- Half way from a magnitude to the next. -/
def midpoint (b : Nat) : ℚ := (value b + value (b + 1)) / 2

theorem value_strictMono : StrictMono value := by
  intro a b hab
  unfold value
  have : (units a : ℚ) < units b := by exact_mod_cast units_strictMono hab
  exact div_lt_div_of_pos_right this unitsOfOne_pos

theorem value_zero : value 0 = 0 := by
  rw [value, units_zero, Nat.cast_zero, zero_div]

theorem value_nonneg (b : Nat) : 0 ≤ value b := by
  unfold value
  exact div_nonneg (by positivity) unitsOfOne_pos.le

theorem value_lt_midpoint (b : Nat) : value b < midpoint b := by
  have := value_strictMono (Nat.lt_succ_self b)
  unfold midpoint
  linarith

theorem midpoint_lt_value (b : Nat) : midpoint b < value (b + 1) := by
  have := value_strictMono (Nat.lt_succ_self b)
  unfold midpoint
  linarith

theorem midpoint_strictMono : StrictMono midpoint :=
  strictMono_nat_of_lt_succ fun b => (midpoint_lt_value b).trans (value_lt_midpoint (b + 1))

theorem midpoint_pos (b : Nat) : 0 < midpoint b :=
  (value_nonneg b).trans_lt (value_lt_midpoint b)

/-! ## Rounding to nearest -/

/-- `x` rounds to something beyond `b`: it is nearer to `b + 1`, or equally near and `b` is odd. -/
def Exceeds (x : ℚ) (b : Nat) : Prop := midpoint b < x ∨ midpoint b = x ∧ b % 2 = 1

/-- `x` rounds to the magnitude `b`. -/
structure RoundsTo (x : ℚ) (b : Nat) : Prop where
  le_infinity : b ≤ infinity
  exceeds : ∀ a < b, Exceeds x a
  not_exceeds : b < infinity → ¬ Exceeds x b

section Rounding

variable {x y : ℚ} {a b : Nat}

theorem Exceeds.midpoint_le (h : Exceeds x b) : midpoint b ≤ x :=
  h.elim le_of_lt fun h => h.1.le

theorem Exceeds.mono (h : Exceeds x b) (hxy : x ≤ y) : Exceeds y b := by
  rcases hxy.lt_or_eq with hlt | rfl
  · exact .inl (h.midpoint_le.trans_lt hlt)
  · exact h

theorem Exceeds.of_lt (h : Exceeds x b) (hab : a < b) : Exceeds x a :=
  .inl ((midpoint_strictMono hab).trans_le h.midpoint_le)

theorem exceeds_value (hab : a < b) : Exceeds (value b) a :=
  .inl ((midpoint_lt_value a).trans_le (value_strictMono.monotone hab))

theorem not_exceeds_value (b : Nat) : ¬ Exceeds (value b) b :=
  fun h => (value_lt_midpoint b).not_ge h.midpoint_le

theorem RoundsTo.unique (h : RoundsTo x a) (h' : RoundsTo x b) : a = b := by
  rcases Nat.lt_trichotomy a b with hlt | heq | hlt
  · exact absurd (h'.exceeds a hlt) (h.not_exceeds (hlt.trans_le h'.le_infinity))
  · exact heq
  · exact absurd (h.exceeds b hlt) (h'.not_exceeds (hlt.trans_le h.le_infinity))

theorem RoundsTo.mono (h : RoundsTo x a) (h' : RoundsTo y b) (hxy : x ≤ y) : a ≤ b := by
  by_contra hlt
  have hlt : b < a := by omega
  exact h'.not_exceeds (hlt.trans_le h.le_infinity) ((h.exceeds b hlt).mono hxy)

/-- What rounds to a magnitude makes up an interval. -/
theorem RoundsTo.of_between {z : ℚ} (hx : RoundsTo x b) (hy : RoundsTo y b) (hxz : x ≤ z)
    (hzy : z ≤ y) : RoundsTo z b where
  le_infinity := hx.le_infinity
  exceeds a hab := (hx.exceeds a hab).mono hxz
  not_exceeds hb h := hy.not_exceeds hb (h.mono hzy)

/-- A finite magnitude is what its own value rounds to. -/
theorem roundsTo_value (hb : b ≤ infinity) : RoundsTo (value b) b where
  le_infinity := hb
  exceeds _ hab := exceeds_value hab
  not_exceeds _ := not_exceeds_value b

/-- It is enough to look at the neighbours. -/
theorem roundsTo_of_pred (hb : b ≤ infinity) (hlow : ∀ a, b = a + 1 → Exceeds x a)
    (hhigh : b < infinity → ¬ Exceeds x b) : RoundsTo x b := by
  refine ⟨hb, fun a hab => ?_, hhigh⟩
  obtain ⟨c, rfl⟩ : ∃ c, b = c + 1 := ⟨b - 1, by omega⟩
  rcases Nat.lt_succ_iff_lt_or_eq.1 hab with hac | rfl
  · exact (hlow c rfl).of_lt hac
  · exact hlow a rfl

theorem RoundsTo.pos (h : RoundsTo x b) (hb : 0 < b) : 0 < x :=
  (midpoint_pos 0).trans_le (h.exceeds 0 hb).midpoint_le

end Rounding

/-! ## Rounding a quotient -/

/-- In units, and without fractions. -/
theorem exceeds_div_iff {num den : Nat} (hden : 0 < den) (b : Nat) :
    Exceeds (num / den) b ↔
      (units b + units (b + 1)) * den < 2 * (num * unitsOfOne) ∨
        (units b + units (b + 1)) * den = 2 * (num * unitsOfOne) ∧ b % 2 = 1 := by
  have hu := unitsOfOne_pos
  have hd : (0 : ℚ) < den := by exact_mod_cast hden
  unfold Exceeds midpoint value
  generalize unitsOfOne = u at hu ⊢
  have hmid : ((units b / u + units (b + 1) / u) / 2 : ℚ) =
      ((units b + units (b + 1)) * den) / (2 * u * den) := by
    field_simp
  have hquot : (num / den : ℚ) = (2 * (num * u)) / (2 * u * den) := by
    field_simp
  have hpos : (0 : ℚ) < 2 * u * den := by positivity
  rw [hmid, hquot, div_lt_div_iff_of_pos_right hpos, div_left_inj' hpos.ne']
  norm_cast

theorem roundQuotient_le {n d k : Nat} (hd : 0 < d) (h : n ≤ k * d) : roundQuotient n d ≤ k := by
  have hnear := (roundQuotient_near n d hd).2
  by_contra hlt
  have hmul : (k + 1) * d ≤ roundQuotient n d * d := Nat.mul_le_mul_right d (by omega)
  rw [Nat.add_mul] at hmul
  omega

theorem le_roundQuotient {n d k : Nat} (hd : 0 < d) (h : k * d ≤ n) : k ≤ roundQuotient n d := by
  have hnear := (roundQuotient_near n d hd).1
  by_contra hlt
  have hmul : (roundQuotient n d + 1) * d ≤ k * d := Nat.mul_le_mul_right d (by omega)
  rw [Nat.add_mul] at hmul
  omega

theorem roundQuotient_even {n d : Nat} (hd : 0 < d)
    (h : 2 * n = 2 * (roundQuotient n d * d) + d ∨ 2 * (roundQuotient n d * d) = 2 * n + d) :
    roundQuotient n d % 2 = 0 := by
  have hn := Nat.div_add_mod n d
  have hr := Nat.mod_lt n hd
  rw [Nat.mul_comm d] at hn
  unfold roundQuotient at h ⊢
  generalize n / d = q at *
  generalize n % d = r at *
  split at h
  · omega
  · split at h
    · rw [Nat.add_mul] at h
      omega
    · rw [if_neg (by assumption), if_neg (by assumption)]
      omega

/-! ## The nearest magnitude -/

/-- The quotient `n / den`, in units, is rounded to `r` steps of `2 ^ h` units, which is a number of
at most 53 bits, and one of 53 bits if the steps are wider than a unit. -/
structure Scaled (n den h r : Nat) : Prop where
  den_pos : 0 < den
  rounded : r = roundQuotient n (den * 2 ^ h)
  le_top : n ≤ 2 * binade * (den * 2 ^ h)
  bottom_le : h = 0 ∨ binade * (den * 2 ^ h) ≤ n

theorem scaled_nearest {den : Nat} (hden : 0 < den) (n : Nat) :
    Scaled n den ((n / den).log2 - 52)
      (roundQuotient n (den <<< ((n / den).log2 - 52))) where
  den_pos := hden
  rounded := by rw [Nat.shiftLeft_eq]
  le_top := by
    have hlog := Nat.lt_log2_self (n := n / den)
    have hexp : 2 ^ ((n / den).log2 + 1) ≤ 2 * binade * 2 ^ ((n / den).log2 - 52) := by
      have hbinade : 2 * binade = 2 ^ 53 := by decide
      rw [hbinade, ← pow_add]
      exact Nat.pow_le_pow_right (by decide) (by omega)
    have hn := Nat.lt_mul_div_succ n hden
    calc n ≤ den * (n / den + 1) := hn.le
      _ ≤ den * (2 * binade * 2 ^ ((n / den).log2 - 52)) :=
        Nat.mul_le_mul_left den (hlog.trans_le hexp)
      _ = 2 * binade * (den * 2 ^ ((n / den).log2 - 52)) := by ring
  bottom_le := by
    rcases Nat.eq_zero_or_pos ((n / den).log2 - 52) with hzero | hpos
    · exact .inl hzero
    · right
      have hne : n / den ≠ 0 := by
        intro hne
        rw [hne] at hpos
        exact absurd hpos (by decide)
      have hbinade : binade = 2 ^ 52 := by decide
      calc binade * (den * 2 ^ ((n / den).log2 - 52))
          = den * 2 ^ (52 + ((n / den).log2 - 52)) := by rw [hbinade, pow_add]; ring
        _ = den * 2 ^ (n / den).log2 := by rw [Nat.add_sub_cancel' (by omega)]
        _ ≤ den * (n / den) := Nat.mul_le_mul_left den (Nat.log2_self_le hne)
        _ ≤ n := Nat.mul_div_le n den

section Scaled

variable {n den h r a : Nat}

theorem Scaled.step_pos (s : Scaled n den h r) : 0 < den * 2 ^ h :=
  Nat.mul_pos s.den_pos (Nat.two_pow_pos h)

theorem Scaled.le (s : Scaled n den h r) : r ≤ 2 * binade := by
  rw [s.rounded]
  exact roundQuotient_le s.step_pos s.le_top

theorem Scaled.binade_le (s : Scaled n den h r) : h = 0 ∨ binade ≤ r := by
  refine s.bottom_le.imp_right fun hle => ?_
  rw [s.rounded]
  exact le_roundQuotient s.step_pos hle

theorem Scaled.near (s : Scaled n den h r) :
    2 * n ≤ 2 * (r * (den * 2 ^ h)) + den * 2 ^ h ∧
      2 * (r * (den * 2 ^ h)) ≤ 2 * n + den * 2 ^ h := by
  rw [s.rounded]
  exact roundQuotient_near n _ s.step_pos

theorem Scaled.even (s : Scaled n den h r)
    (htie : 2 * n = 2 * (r * (den * 2 ^ h)) + den * 2 ^ h ∨
      2 * (r * (den * 2 ^ h)) = 2 * n + den * 2 ^ h) : (r + h * binade) % 2 = 0 := by
  have hbinade : binade % 2 = 0 := by decide
  rw [s.rounded] at htie
  have heven := roundQuotient_even s.step_pos htie
  rw [← s.rounded] at heven
  rw [Nat.add_mod, heven, Nat.mul_mod, hbinade, Nat.mul_zero]

theorem Scaled.units_eq (s : Scaled n den h r) : units (r + h * binade) = r * 2 ^ h := by
  rcases Nat.lt_or_ge r binade with hr | hr
  · obtain rfl : h = 0 := s.binade_le.resolve_right (by omega)
    rw [Nat.zero_mul, Nat.add_zero, units_of_lt hr, pow_zero, Nat.mul_one]
  · exact units_add hr s.le h

theorem Scaled.le_doublings (s : Scaled n den h r) : h ≤ doublings (r + h * binade) := by
  rcases s.binade_le with rfl | hr
  · exact Nat.zero_le _
  · have hdiv : h + 1 ≤ (r + h * binade) / binade := by
      rw [Nat.le_div_iff_mul_le (by decide), Nat.add_mul]
      omega
    unfold doublings
    omega

/-- The step below is narrower only where the 53 bits are the least possible. -/
theorem Scaled.doublings_pred (s : Scaled n den h r) (ha : r + h * binade = a + 1) :
    doublings a = h ∨ r * (den * 2 ^ h) ≤ n := by
  have hdiv : a / binade < h + 2 := by
    rw [Nat.div_lt_iff_lt_mul (by decide), Nat.add_mul]
    have := s.le
    omega
  rcases s.bottom_le with rfl | hle
  · left
    unfold doublings
    omega
  · rcases Nat.lt_or_ge binade r with hr | hr
    · left
      have : h + 1 ≤ a / binade := by
        rw [Nat.le_div_iff_mul_le (by decide), Nat.add_mul]
        omega
      unfold doublings
      omega
    · exact .inr ((Nat.mul_le_mul_right _ hr).trans hle)

theorem Scaled.not_exceeds {num : Nat} (s : Scaled (num * unitsOfOne) den h r) :
    ¬ Exceeds (num / den) (r + h * binade) := by
  rw [exceeds_div_iff s.den_pos, units_succ, s.units_eq]
  have hstep : 2 ^ h ≤ 2 ^ doublings (r + h * binade) :=
    Nat.pow_le_pow_right (by decide) s.le_doublings
  have hmul : (r * 2 ^ h + (r * 2 ^ h + 2 ^ h)) * den ≤
      (r * 2 ^ h + (r * 2 ^ h + 2 ^ doublings (r + h * binade))) * den :=
    Nat.mul_le_mul_right den (by omega)
  have hsum : (r * 2 ^ h + (r * 2 ^ h + 2 ^ h)) * den =
      2 * (r * (den * 2 ^ h)) + den * 2 ^ h := by ring
  have hnear := s.near.1
  have heven := s.even
  omega

theorem Scaled.exceeds {num : Nat} (s : Scaled (num * unitsOfOne) den h r)
    (ha : r + h * binade = a + 1) : Exceeds (num / den) a := by
  have hunits : units a + 2 ^ doublings a = r * 2 ^ h := by
    rw [← units_succ, ← ha, s.units_eq]
  have hsum : (units a + units (a + 1)) * den + 2 ^ doublings a * den =
      2 * (r * (den * 2 ^ h)) := by
    calc (units a + units (a + 1)) * den + 2 ^ doublings a * den
        = ((units a + 2 ^ doublings a) + (units a + 2 ^ doublings a)) * den := by
          rw [units_succ]; ring
      _ = 2 * (r * (den * 2 ^ h)) := by rw [hunits]; ring
  rw [exceeds_div_iff s.den_pos]
  rcases s.doublings_pred ha with hstep | hle
  · rw [hstep, Nat.mul_comm (2 ^ h) den] at hsum
    have hnear := s.near.2
    have heven := s.even
    omega
  · have hpos : 0 < 2 ^ doublings a * den := Nat.mul_pos (Nat.two_pow_pos _) s.den_pos
    omega

end Scaled

/-- `nearest` rounds to nearest. -/
theorem roundsTo_nearest {num den : Nat} (hden : 0 < den) :
    RoundsTo (num / den) (nearest num den) := by
  have s := scaled_nearest hden (num * unitsOfOne)
  unfold nearest
  dsimp only
  generalize (num * unitsOfOne / den).log2 - 52 = h at s ⊢
  generalize roundQuotient (num * unitsOfOne) (den <<< h) = r at s ⊢
  split
  · next hlt =>
    exact roundsTo_of_pred hlt.le (fun a ha => s.exceeds ha) fun _ => s.not_exceeds
  · next hge =>
    refine ⟨Nat.le_refl _, fun a ha => ?_, fun h => absurd h (Nat.lt_irrefl _)⟩
    obtain ⟨c, hc⟩ : ∃ c, r + h * binade = c + 1 := ⟨r + h * binade - 1, by omega⟩
    have hexceeds := s.exceeds hc
    rcases Nat.lt_or_ge a c with hac | hac
    · exact hexceeds.of_lt hac
    · obtain rfl : a = c := by omega
      exact hexceeds

/-! ## Rounding a decimal -/

def Decimal.value (d : Decimal) : ℚ := d.coefficient * 10 ^ d.exponent

theorem tenPow_eq (n : Nat) : tenPow n = 10 ^ n := rfl

theorem cast_tenPow (n : Nat) : ((tenPow n : Nat) : ℚ) = 10 ^ n := by
  rw [tenPow_eq]
  push_cast
  rfl

theorem lt_tenPow_digitCount (n : Nat) : n < tenPow (digitCount n) :=
  (digitCount_le_iff Nat.length_toDigits_pos).1 (Nat.le_refl _)

theorem tenPow_le_of_ne_zero {n : Nat} (h : n ≠ 0) : tenPow (digitCount n - 1) ≤ n := by
  rcases Nat.eq_zero_or_pos (digitCount n - 1) with hzero | hpos
  · rw [hzero]
    exact Nat.one_le_iff_ne_zero.2 h
  · have hiff := digitCount_le_iff (n := n) hpos
    by_contra hlt
    have := hiff.2 (by omega)
    omega

namespace Decimal

theorem value_eq_div (d : Decimal) :
    d.value =
      (d.coefficient * tenPow d.exponent.toNat : Nat) / (tenPow (-d.exponent).toNat : Nat) := by
  have hpow : (10 : ℚ) ^ d.exponent = 10 ^ d.exponent.toNat / 10 ^ (-d.exponent).toNat := by
    rw [← zpow_natCast, ← zpow_natCast, ← zpow_sub₀ (by norm_num), Int.toNat_sub_toNat_neg]
  rw [value, hpow, Nat.cast_mul, cast_tenPow, cast_tenPow, mul_div_assoc]

theorem value_lt (d : Decimal) : d.value < 10 ^ (d.exponent + digitCount d.coefficient) := by
  have hcast : (d.coefficient : ℚ) < 10 ^ (digitCount d.coefficient : ℤ) := by
    rw [zpow_natCast, ← cast_tenPow]
    exact_mod_cast lt_tenPow_digitCount d.coefficient
  rw [value, add_comm, zpow_add₀ (by norm_num)]
  exact mul_lt_mul_of_pos_right hcast (by positivity)

theorem le_value {d : Decimal} (h : d.coefficient ≠ 0) :
    10 ^ (d.exponent + digitCount d.coefficient - 1) ≤ d.value := by
  have hcount : 1 ≤ digitCount d.coefficient := Nat.length_toDigits_pos
  have hcast : (10 : ℚ) ^ ((digitCount d.coefficient - 1 : Nat) : ℤ) ≤ d.coefficient := by
    rw [zpow_natCast, ← cast_tenPow]
    exact_mod_cast tenPow_le_of_ne_zero h
  have hexp : d.exponent + digitCount d.coefficient - 1 =
      ((digitCount d.coefficient - 1 : Nat) : ℤ) + d.exponent := by omega
  rw [value, hexp, zpow_add₀ (by norm_num)]
  exact mul_le_mul_of_nonneg_right hcast (by positivity)

end Decimal

theorem roundsTo_zero {x : ℚ} (h : x < midpoint 0) : RoundsTo x 0 :=
  roundsTo_of_pred (Nat.zero_le _) (fun a ha => absurd ha (Nat.succ_ne_zero a).symm)
    fun _ hexceeds => h.not_ge hexceeds.midpoint_le

theorem roundsTo_infinity {x : ℚ} (h : value infinity ≤ x) : RoundsTo x infinity :=
  ⟨Nat.le_refl _, fun _ ha => (exceeds_value ha).mono h, fun hlt => absurd hlt (Nat.lt_irrefl _)⟩

theorem pow_lt_midpoint_zero : (10 : ℚ) ^ (-324 : ℤ) < midpoint 0 := by
  have hlt : 2 * unitsOfOne < tenPow 324 := by decide +kernel
  have hcast : (2 * unitsOfOne : ℚ) < 10 ^ 324 := by
    rw [← cast_tenPow]
    exact_mod_cast hlt
  have hu := unitsOfOne_pos
  have hmid : midpoint 0 = 1 / (2 * unitsOfOne) := by
    have hone : units 1 = 1 := units_of_lt (by decide)
    rw [midpoint, value, value, units_zero, Nat.zero_add, hone]
    field_simp
    simp
  rw [hmid, zpow_neg, ← one_div]
  exact one_div_lt_one_div_of_lt (by positivity) hcast

theorem value_infinity_le : value infinity ≤ (10 : ℚ) ^ (309 : ℤ) := by
  have hle : units infinity ≤ tenPow 309 * unitsOfOne := by decide +kernel
  have hcast : (units infinity : ℚ) ≤ 10 ^ 309 * unitsOfOne := by
    rw [← cast_tenPow]
    exact_mod_cast hle
  rw [value, div_le_iff₀ unitsOfOne_pos]
  exact hcast

/-- A decimal is rounded to nearest, whatever its exponent. -/
theorem Decimal.roundsTo_magnitude (d : Decimal) : RoundsTo d.value d.magnitude := by
  unfold magnitude
  dsimp only
  split
  · next hsmall =>
    refine roundsTo_zero ?_
    rcases hsmall with hzero | htop
    · rw [value, hzero, Nat.cast_zero, zero_mul]
      exact midpoint_pos 0
    · calc d.value < 10 ^ (d.exponent + digitCount d.coefficient) := d.value_lt
        _ ≤ 10 ^ (-324 : ℤ) := zpow_le_zpow_right₀ (by norm_num) (by omega)
        _ < midpoint 0 := pow_lt_midpoint_zero
  · next hsmall =>
    obtain ⟨hne, -⟩ := not_or.1 hsmall
    split
    · next htop =>
      refine roundsTo_infinity ?_
      calc Number.value infinity ≤ 10 ^ (309 : ℤ) := value_infinity_le
        _ ≤ 10 ^ (d.exponent + digitCount d.coefficient - 1) :=
          zpow_le_zpow_right₀ (by norm_num) (by omega)
        _ ≤ d.value := le_value hne
    · rw [value_eq_div]
      exact roundsTo_nearest (Nat.pow_pos (by decide))

/-- The magnitude of a decimal is told by its value. -/
theorem Decimal.magnitude_eq_iff {d : Decimal} {b : Nat} :
    d.magnitude = b ↔ RoundsTo d.value b :=
  ⟨fun h => h ▸ d.roundsTo_magnitude, fun h => d.roundsTo_magnitude.unique h⟩

end LazyRegisters.Number
