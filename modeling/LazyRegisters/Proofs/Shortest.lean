import LazyRegisters.Number.Shortest
import LazyRegisters.Proofs.Rounding

/-!
# The shortest decimal

What rounds to a magnitude makes up an interval around its value. A grid, the multiples of a power
of ten, meets that interval iff one of the two points next to the value lies in it, and these are
the points that `gridPoint?` looks at. So `shortest` takes the coarsest of all grids that hold a
number that rounds to the magnitude (`shortest_spec`). A number with fewer digits would put a power
of ten between itself and that point, and so a point of a coarser grid into the interval
(`shortest_lt_of_lt`).
-/

namespace LazyRegisters.Number

section

variable {b c : Nat} {p : Int}

/-! ## Points of a grid -/

theorem roundsTo_iff {x : ℚ} (hpos : 0 < b) (hb : b < infinity) :
    RoundsTo x b ↔ Exceeds x (b - 1) ∧ ¬ Exceeds x b := by
  constructor
  · intro h
    exact ⟨h.exceeds _ (by omega), h.not_exceeds hb⟩
  · rintro ⟨hlow, hhigh⟩
    refine roundsTo_of_pred hb.le (fun a ha => ?_) fun _ => hhigh
    rwa [ha, Nat.add_sub_cancel] at hlow

/-- The distance of the points of a grid, as `gridPoint?` counts it. -/
def gridStep (p : Int) : Nat := tenPow p.toNat * (2 * unitsOfOne)

/-- The last point of the grid that is not above the value. -/
def gridFloor (b : Nat) (p : Int) : Nat := 2 * units b * tenPow (-p).toNat / gridStep p

/-- Whether a length rounds to the magnitude, as `gridPoint?` counts it. -/
def gridRounds (b : Nat) (p : Int) (x : Nat) : Bool :=
  if b % 2 = 0 then
    (units (b - 1) + units b) * tenPow (-p).toNat ≤ x &&
      x ≤ (units b + units (b + 1)) * tenPow (-p).toNat
  else
    (units (b - 1) + units b) * tenPow (-p).toNat < x &&
      x < (units b + units (b + 1)) * tenPow (-p).toNat

theorem gridPoint?_eq (b : Nat) (p : Int) :
    gridPoint? b p =
      match gridRounds b p (gridFloor b p * gridStep p),
        gridRounds b p ((gridFloor b p + 1) * gridStep p) with
      | false, false => none
      | true, false => some (gridFloor b p)
      | false, true => some (gridFloor b p + 1)
      | true, true =>
        some (if (gridFloor b p + 1) * gridStep p - 2 * units b * tenPow (-p).toNat ≤
            2 * units b * tenPow (-p).toNat - gridFloor b p * gridStep p
          then gridFloor b p + 1 else gridFloor b p) := rfl

theorem gridStep_pos (p : Int) : 0 < gridStep p :=
  Nat.mul_pos (Nat.pow_pos (by decide))
    (Nat.mul_pos (by decide) (by exact_mod_cast unitsOfOne_pos))

theorem point_eq (c : Nat) (p : Int) :
    c * gridStep p = 2 * (c * tenPow p.toNat * unitsOfOne) := by
  unfold gridStep
  ring

/-- `gridRounds` is right about the points of the grid. -/
theorem gridRounds_iff (hpos : 0 < b) (hb : b < infinity) :
    gridRounds b p (c * gridStep p) = true ↔ RoundsTo (Decimal.mk c p).value b := by
  have hden : 0 < tenPow (-p).toNat := Nat.pow_pos (by decide)
  have hparity : (b - 1) % 2 = 1 ↔ b % 2 = 0 := by omega
  rw [roundsTo_iff hpos hb, Decimal.value_eq_div, exceeds_div_iff hden, exceeds_div_iff hden,
    hparity, Nat.sub_add_cancel hpos, gridRounds, point_eq]
  split <;> simp only [Bool.and_eq_true, decide_eq_true_eq] <;> omega

theorem gridPoint_value_le_iff :
    (Decimal.mk c p).value ≤ value b ↔ c * gridStep p ≤ 2 * units b * tenPow (-p).toNat := by
  have hu := unitsOfOne_pos
  have hden : (0 : ℚ) < tenPow (-p).toNat := by
    rw [cast_tenPow]
    positivity
  have hcast : c * gridStep p ≤ 2 * units b * tenPow (-p).toNat ↔
      c * tenPow p.toNat * unitsOfOne ≤ units b * tenPow (-p).toNat := by
    rw [point_eq, Nat.mul_assoc 2]
    omega
  rw [hcast, Decimal.value_eq_div, value, div_le_div_iff₀ hden hu]
  exact_mod_cast Iff.rfl

theorem gridFloor_le (b : Nat) (p : Int) : (Decimal.mk (gridFloor b p) p).value ≤ value b :=
  gridPoint_value_le_iff.2 (Nat.div_mul_le_self _ _)

theorem lt_gridFloor_succ (b : Nat) (p : Int) :
    value b < (Decimal.mk (gridFloor b p + 1) p).value := by
  rw [← not_le, gridPoint_value_le_iff, not_le, Nat.mul_comm (gridFloor b p + 1)]
  exact Nat.lt_mul_div_succ _ (gridStep_pos p)

theorem gridPoint_value_mono {c c' : Nat} (h : c ≤ c') (p : Int) :
    (Decimal.mk c p).value ≤ (Decimal.mk c' p).value := by
  have hcast : (c : ℚ) ≤ c' := by exact_mod_cast h
  exact mul_le_mul_of_nonneg_right hcast (by positivity)

theorem roundsTo_of_gridPoint? (hpos : 0 < b) (hb : b < infinity)
    (h : gridPoint? b p = some c) : RoundsTo (Decimal.mk c p).value b := by
  rw [gridPoint?_eq] at h
  rw [← gridRounds_iff hpos hb]
  split at h
  · cases h
  · next hbelow _ => cases h; exact hbelow
  · next _ habove => cases h; exact habove
  · next hbelow habove =>
    cases h
    split
    · exact habove
    · exact hbelow

/-- Where the points next to the value do not round to the magnitude, no point of the grid does. -/
theorem not_roundsTo_of_gridPoint? (hpos : 0 < b) (hb : b < infinity)
    (h : gridPoint? b p = none) (c : Nat) : ¬ RoundsTo (Decimal.mk c p).value b := by
  intro hc
  have hvalue := roundsTo_value hb.le
  -- Between the point `c` and the value, which both round to `b`, lies a point next to the value.
  have hnext : gridRounds b p (gridFloor b p * gridStep p) = true ∨
      gridRounds b p ((gridFloor b p + 1) * gridStep p) = true := by
    rw [gridRounds_iff hpos hb, gridRounds_iff hpos hb]
    rcases Nat.lt_or_ge (gridFloor b p) c with hlt | hle
    · exact .inr (hvalue.of_between hc (lt_gridFloor_succ b p).le (gridPoint_value_mono hlt p))
    · exact .inl (hc.of_between hvalue (gridPoint_value_mono hle p) (gridFloor_le b p))
  rw [gridPoint?_eq] at h
  split at h
  · next hbelow habove => simp [hbelow, habove] at hnext
  all_goals cases h

/-! ## The coarsest grid -/

theorem tenPow_eq_mul (n : Nat) : tenPow n = Nat.pow 5 n * 1 <<< n := by
  have hpow : Nat.pow 5 n = 5 ^ n := rfl
  rw [hpow, Nat.shiftLeft_eq, Nat.one_mul, ← Nat.mul_pow]
  rfl

/-- The grid of one unit, divided by a power of five, holds every magnitude. -/
theorem value_finest {n : Nat} (hn : unitsOfOne = 1 <<< n) (b : Nat) :
    (Decimal.mk (units b * Nat.pow 5 n) (-n)).value = value b := by
  have hfive : (Nat.pow 5 n : ℚ) ≠ 0 := by exact_mod_cast (Nat.pow_pos (by decide) : 0 < 5 ^ n).ne'
  have hzero : (-(n : Int)).toNat = 0 := by omega
  have hplaces : (- -(n : Int)).toNat = n := by omega
  have hone : tenPow 0 = 1 := rfl
  rw [Decimal.value_eq_div, hzero, hplaces, hone, Nat.mul_one, tenPow_eq_mul, ← hn, value]
  push_cast
  rw [mul_comm (Nat.pow 5 n : ℚ), mul_div_mul_right _ _ hfive]

/-- A decimal that rounds to the magnitude, on the coarsest grid up to an exponent. -/
structure Coarsest (b : Nat) (top : Int) (d : Decimal) : Prop where
  roundsTo : RoundsTo d.value b
  exponent_le : ∀ d' : Decimal, RoundsTo d'.value b → d'.exponent ≤ top →
    d'.exponent ≤ d.exponent

theorem coarsest_spec (hpos : 0 < b) (hb : b < infinity) (n : Nat) :
    Coarsest b (n - 1074) (coarsest b n) := by
  -- Down to the last grid, which is met; a grid that is not met holds no number to look for.
  induction n with
  | zero =>
    refine ⟨?_, fun d' _ hle => hle⟩
    have hunits : unitsOfOne = 1 <<< 1074 := rfl
    unfold coarsest
    generalize hn : 1074 = n at hunits ⊢
    have hexponent : (-1074 : Int) = -n := by omega
    rw [hexponent, value_finest hunits]
    exact roundsTo_value hb.le
  | succ n ih =>
    unfold coarsest
    split
    · next c hc => exact ⟨roundsTo_of_gridPoint? hpos hb hc, fun d' _ hle => hle⟩
    · next hnone =>
      refine ⟨ih.roundsTo, fun d' hd' hle => ?_⟩
      have hne : d'.exponent ≠ ((n + 1 : Nat) - 1074 : Int) := fun heq =>
        not_roundsTo_of_gridPoint? hpos hb hnone d'.coefficient (heq ▸ hd')
      exact ih.exponent_le d' hd' (by omega)

/-! ## No coarser grid -/

theorem value_lt_decimalExponent (hpos : 0 < b) : value b < 10 ^ decimalExponent b := by
  have hu := unitsOfOne_pos
  have hunits := units_pos hpos
  unfold value decimalExponent
  split
  · next hone =>
    have hlt : units b < tenPow (digitCount (units b / unitsOfOne)) * unitsOfOne :=
      (Nat.div_lt_iff_lt_mul (by exact_mod_cast hu)).1 (lt_tenPow_digitCount _)
    rw [div_lt_iff₀ hu, zpow_natCast, ← cast_tenPow]
    exact_mod_cast hlt
  · next hone =>
    have hne : (unitsOfOne - 1) / units b ≠ 0 := by
      rw [Nat.div_ne_zero_iff]
      omega
    have hle : tenPow (digitCount ((unitsOfOne - 1) / units b) - 1) * units b < unitsOfOne := by
      have := (Nat.le_div_iff_mul_le hunits).1 (tenPow_le_of_ne_zero hne)
      omega
    have hcount : 1 ≤ digitCount ((unitsOfOne - 1) / units b) := Nat.length_toDigits_pos
    have hexp : (1 : Int) - digitCount ((unitsOfOne - 1) / units b) =
        -((digitCount ((unitsOfOne - 1) / units b) - 1 : Nat) : Int) := by omega
    rw [hexp, zpow_neg, zpow_natCast, ← cast_tenPow, div_lt_iff₀ hu, inv_mul_eq_div,
      lt_div_iff₀ (by rw [cast_tenPow]; positivity), mul_comm]
    exact_mod_cast hle

theorem value_succ_le (hpos : 0 < b) : value (b + 1) ≤ 2 * value b := by
  have hle : units (b + 1) ≤ 2 * units b := by
    have hsig : 0 < significand b := by
      have hbinade : 0 < binade := by decide
      unfold significand
      split <;> omega
    have hmul : 1 * 2 ^ doublings b ≤ units b := by
      rw [units_eq]
      exact Nat.mul_le_mul_right _ hsig
    rw [units_succ]
    omega
  have hcast : (units (b + 1) : ℚ) ≤ 2 * units b := by exact_mod_cast hle
  unfold value
  rw [← mul_div_assoc]
  exact div_le_div_of_nonneg_right hcast unitsOfOne_pos.le

theorem coefficient_ne_zero {d : Decimal} (h : RoundsTo d.value b) (hpos : 0 < b) :
    d.coefficient ≠ 0 := by
  intro hzero
  have hvalue := h.pos hpos
  rw [Decimal.value, hzero, Nat.cast_zero, zero_mul] at hvalue
  exact lt_irrefl _ hvalue

/-- Points of a grid coarser than the first one looked at lie beyond the next magnitude. -/
theorem exponent_le_decimalExponent (hpos : 0 < b) (hb : b < infinity) {d : Decimal}
    (h : RoundsTo d.value b) : d.exponent ≤ decimalExponent b := by
  by_contra hlt
  refine h.not_exceeds hb (.inl ?_)
  have hcount : 1 ≤ digitCount d.coefficient := Nat.length_toDigits_pos
  have hvalue := value_lt_decimalExponent hpos
  have hnonneg := value_nonneg b
  calc midpoint b < value (b + 1) := midpoint_lt_value b
    _ ≤ 2 * value b := value_succ_le hpos
    _ ≤ 10 ^ (decimalExponent b + 1) := by
      rw [zpow_add_one₀ (by norm_num)]
      linarith
    _ ≤ 10 ^ (d.exponent + digitCount d.coefficient - 1) :=
      zpow_le_zpow_right₀ (by norm_num) (by omega)
    _ ≤ d.value := Decimal.le_value (coefficient_ne_zero h hpos)

/-! ## The shortest decimal -/

/-- **`shortest` rounds to the magnitude, on the coarsest of all grids that hold such a number.** -/
theorem shortest_spec (hpos : 0 < b) (hb : b < infinity) :
    RoundsTo (shortest b).value b ∧
      ∀ d : Decimal, RoundsTo d.value b → d.exponent ≤ (shortest b).exponent := by
  have hcoarsest := coarsest_spec hpos hb (decimalExponent b + 1074).toNat
  rw [shortest, if_neg hpos.ne']
  refine ⟨hcoarsest.roundsTo, fun d hd => hcoarsest.exponent_le d hd ?_⟩
  have := exponent_le_decimalExponent hpos hb hd
  omega

theorem magnitude_shortest (hb : b < infinity) : (shortest b).magnitude = b := by
  rcases Nat.eq_zero_or_pos b with rfl | hpos
  · decide
  · exact Decimal.magnitude_eq_iff.2 (shortest_spec hpos hb).1

theorem not_dvd_shortest (hpos : 0 < b) (hb : b < infinity) :
    ¬ 10 ∣ (shortest b).coefficient := by
  rintro ⟨c, hc⟩
  obtain ⟨hrounds, hmax⟩ := shortest_spec hpos hb
  have hvalue : (shortest b).value = (Decimal.mk c ((shortest b).exponent + 1)).value := by
    rw [Decimal.value, Decimal.value, hc, zpow_add_one₀ (by norm_num)]
    push_cast
    ring
  have hle := hmax _ (hvalue ▸ hrounds)
  dsimp only at hle
  omega

/-- **No decimal with fewer digits rounds to the magnitude.** -/
theorem shortest_lt_of_lt (hpos : 0 < b) (hb : b < infinity) {d : Decimal}
    (hd : RoundsTo d.value b) {n : Nat} (hlt : d.coefficient < tenPow n) :
    (shortest b).coefficient < tenPow n := by
  obtain ⟨hrounds, hmax⟩ := shortest_spec hpos hb
  have hexponent := hmax d hd
  by_contra hge
  have hn : n ≠ 0 := by
    rintro rfl
    exact coefficient_ne_zero hd hpos (Nat.lt_one_iff.1 hlt)
  -- The power of ten lies between the two, on a coarser grid.
  have hlow : d.value ≤ (Decimal.mk 1 (n + (shortest b).exponent)).value := by
    have hcast : (d.coefficient : ℚ) ≤ 10 ^ (n : ℤ) := by
      rw [zpow_natCast, ← cast_tenPow]
      exact_mod_cast hlt.le
    calc d.value ≤ 10 ^ (n : ℤ) * 10 ^ d.exponent :=
          mul_le_mul_of_nonneg_right hcast (by positivity)
      _ ≤ 10 ^ (n : ℤ) * 10 ^ (shortest b).exponent :=
          mul_le_mul_of_nonneg_left (zpow_le_zpow_right₀ (by norm_num) hexponent) (by positivity)
      _ = (Decimal.mk 1 (n + (shortest b).exponent)).value := by
          rw [Decimal.value, zpow_add₀ (by norm_num), Nat.cast_one, one_mul]
  have hhigh : (Decimal.mk 1 (n + (shortest b).exponent)).value ≤ (shortest b).value := by
    have hcast : (10 : ℚ) ^ (n : ℤ) ≤ (shortest b).coefficient := by
      rw [zpow_natCast, ← cast_tenPow]
      exact_mod_cast not_lt.1 hge
    rw [Decimal.value, Decimal.value, Nat.cast_one, one_mul, zpow_add₀ (by norm_num)]
    exact mul_le_mul_of_nonneg_right hcast (by positivity)
  have hle := hmax _ (hd.of_between hrounds hlow hhigh)
  dsimp only at hle
  omega

/-- One digit is enough for the smallest positive number. -/
example : shortest 1 = ⟨5, -324⟩ := by decide +kernel

/-! ## Whole numbers -/

/-- A whole number that is rounded to `b` is the value of `b`, as long as the magnitudes around `b`
are not further apart than whole numbers. -/
theorem value_eq_of_roundsTo {n : Nat} (hpos : 0 < b) (hb : b < infinity)
    (hstep : 2 ^ doublings b ∣ unitsOfOne) (h : RoundsTo n b) : value b = n := by
  obtain ⟨k, hk⟩ := hstep
  have hunits := units_eq b
  have hpred : units b = units (b - 1) + 2 ^ doublings (b - 1) := by
    rw [← units_succ, Nat.sub_add_cancel hpos]
  have hnarrow : 2 ^ doublings (b - 1) ≤ 2 ^ doublings b := by
    have hdiv : (b - 1) / binade ≤ b / binade := Nat.div_le_div_right (Nat.sub_le b 1)
    refine Nat.pow_le_pow_right (by decide) ?_
    unfold doublings
    omega
  have hquot : (n : ℚ) = n / (1 : Nat) := by rw [Nat.cast_one, div_one]
  rw [hquot, roundsTo_iff hpos hb, exceeds_div_iff Nat.one_pos, exceeds_div_iff Nat.one_pos,
    Nat.sub_add_cancel hpos, Nat.mul_one, Nat.mul_one, units_succ b] at h
  have hmul : n * unitsOfOne = n * k * 2 ^ doublings b := by
    rw [hk]
    ring
  -- Both count steps of `2 ^ doublings b` units, and they are at most half a step apart.
  have heq : n * k = significand b := by
    have hlow : 2 * significand b * 2 ^ doublings b ≤ (2 * (n * k) + 1) * 2 ^ doublings b := by
      rw [Nat.add_mul, Nat.mul_assoc 2, Nat.mul_assoc 2, ← hunits, ← hmul, Nat.one_mul]
      omega
    have hhigh : 2 * (n * k) * 2 ^ doublings b ≤ (2 * significand b + 1) * 2 ^ doublings b := by
      rw [Nat.add_mul, Nat.mul_assoc 2, Nat.mul_assoc 2, ← hunits, ← hmul, Nat.one_mul]
      omega
    have hlow := Nat.le_of_mul_le_mul_right hlow (Nat.two_pow_pos _)
    have hhigh := Nat.le_of_mul_le_mul_right hhigh (Nat.two_pow_pos _)
    omega
  rw [value, div_eq_iff unitsOfOne_pos.ne', hunits, ← heq]
  exact_mod_cast hmul.symm

theorem dvd_unitsOfOne_or (k : Nat) : 2 ^ k ∣ unitsOfOne ∨ unitsOfOne ∣ 2 ^ k := by
  have hunits : unitsOfOne = 1 <<< 1074 := rfl
  generalize 1074 = n at hunits
  rw [hunits, Nat.shiftLeft_eq, Nat.one_mul]
  exact (Nat.le_total k n).imp (Nat.pow_dvd_pow 2) (Nat.pow_dvd_pow 2)

theorem shortest_exponent_nonneg_iff (hpos : 0 < b) (hb : b < infinity) :
    0 ≤ (shortest b).exponent ↔ ∃ n : Nat, value b = n := by
  obtain ⟨hrounds, hmax⟩ := shortest_spec hpos hb
  constructor
  · intro hexponent
    have hwhole : (shortest b).value =
        ((shortest b).coefficient * tenPow (shortest b).exponent.toNat : Nat) := by
      have hzero : (-(shortest b).exponent).toNat = 0 := by omega
      have hone : tenPow 0 = 1 := rfl
      rw [Decimal.value_eq_div, hzero, hone, Nat.cast_one, div_one]
    rcases dvd_unitsOfOne_or (doublings b) with hstep | hstep
    · exact ⟨_, value_eq_of_roundsTo hpos hb hstep (hwhole ▸ hrounds)⟩
    · have hdvd : unitsOfOne ∣ units b := by
        rw [units_eq]
        exact hstep.mul_left _
      obtain ⟨n, hn⟩ := hdvd
      refine ⟨n, ?_⟩
      rw [value, div_eq_iff unitsOfOne_pos.ne', hn, Nat.mul_comm]
      push_cast
      rfl
  · rintro ⟨n, hn⟩
    have hvalue : (Decimal.mk n 0).value = value b := by
      rw [Decimal.value, zpow_zero, mul_one, hn]
    exact hmax ⟨n, 0⟩ (hvalue ▸ roundsTo_value hb.le)

end

end LazyRegisters.Number
