import LazyRegisters.Proofs.ExactValue
import LazyRegisters.Proofs.NumeralReading

/-!
# Numbers are read correctly rounded

Rounding was told by midpoints. Here it is told by distances: a magnitude to which a number rounds
is nearest to it, and even if another is as near (`RoundsTo.nearest`); the first midpoint is the
greatest number that rounds to zero, and the last one the least that rounds to infinity. A decimal
of the grammar is read as the number nearest to its exact value in this sense, with its sign, and a
greater decimal is never read as a lesser number (`ofWord?_nearest`).
-/

namespace LazyRegisters.Number

open Grammar

/-- No finite number is nearer to `r` than `x`, and where another one is as near the last bit of `x`
is zero. -/
def IsNearest (r : ℚ) (x : Float) : Prop :=
  ∃ v, rational? x = some v ∧ ∀ y w, rational? y = some w →
    |v - r| ≤ |w - r| ∧ (|v - r| = |w - r| → w = v ∨ x.toBits.toNat % 2 = 0)

section Rounding

variable {x y : Float} {q r u v : ℚ} {b : Nat} {negative : Bool} {word : String}

/-! ## The least and the greatest midpoint -/

theorem midpoint_zero : midpoint 0 = 2 ^ (-1075 : ℤ) := by
  have hone : value 1 = 2 ^ (-1074 : ℤ) := by
    rw [value_eq_zpow]
    exact one_mul _
  rw [midpoint, value_zero, hone, zero_add, div_eq_mul_inv, ← zpow_neg_one, ← zpow_add₀ two_ne_zero]
  rfl

theorem value_of_doublings {n k : Nat} (hn : significand b = n) (hk : doublings b = k + 1074) :
    value b = n * 2 ^ k := by
  rw [value_eq_zpow, hn, hk, Nat.cast_add, Nat.cast_ofNat, add_sub_cancel_right, zpow_natCast]

theorem midpoint_top : midpoint (infinity - 1) = 2 ^ 1024 - 2 ^ 970 := by
  have hlow := value_of_doublings (b := infinity - 1) (n := 2 ^ 53 - 1) (k := 971) rfl rfl
  have hhigh := value_of_doublings (b := infinity) (n := 2 ^ 52) (k := 972) rfl rfl
  have hsucc : infinity - 1 + 1 = infinity := rfl
  have hone : (2 : ℚ) ^ 971 = 2 ^ 1 * 2 ^ 970 := pow_add 2 1 970
  have htwo : (2 : ℚ) ^ 972 = 2 ^ 2 * 2 ^ 970 := pow_add 2 2 970
  have hall : (2 : ℚ) ^ 1024 = 2 ^ 54 * 2 ^ 970 := pow_add 2 54 970
  rw [midpoint, hsucc, hlow, hhigh, hone, htwo, hall]
  generalize (2 : ℚ) ^ 970 = t
  push_cast
  ring

theorem RoundsTo.eq_zero_iff (h : RoundsTo q b) : b = 0 ↔ q ≤ midpoint 0 := by
  constructor
  · intro hb
    by_contra hlt
    rw [hb] at h
    exact h.not_exceeds (by decide) (.inl (not_le.1 hlt))
  · intro hq
    by_contra hne
    obtain hlt | ⟨-, hodd⟩ := h.exceeds 0 (Nat.pos_of_ne_zero hne)
    · exact hq.not_gt hlt
    · cases hodd

theorem RoundsTo.eq_infinity_iff (h : RoundsTo q b) :
    b = infinity ↔ midpoint (infinity - 1) ≤ q := by
  have hodd : (infinity - 1) % 2 = 1 := by decide
  constructor
  · intro hb
    exact (h.exceeds (infinity - 1) (by rw [hb]; decide)).midpoint_le
  · intro hq
    by_contra hne
    have hlt : b < infinity := lt_of_le_of_ne h.le_infinity hne
    have htop : Exceeds q (infinity - 1) := hq.lt_or_eq.imp id fun heq => ⟨heq, hodd⟩
    refine h.not_exceeds hlt ?_
    rcases Nat.lt_or_ge b (infinity - 1) with hb | hb
    · exact htop.of_lt hb
    · obtain rfl : b = infinity - 1 := by omega
      exact htop

/-! ## Distances -/

theorem abs_sub_le_iff_middle_le (h : u < v) : |v - r| ≤ |u - r| ↔ (u + v) / 2 ≤ r := by
  rw [← sq_le_sq]
  constructor
  · intro hsq
    by_contra hlt
    nlinarith
  · intro hr
    nlinarith

theorem abs_sub_le_iff_le_middle (h : u < v) : |u - r| ≤ |v - r| ↔ r ≤ (u + v) / 2 := by
  rw [← sq_le_sq]
  constructor
  · intro hsq
    by_contra hlt
    nlinarith
  · intro hr
    nlinarith

/-- A magnitude to which a number rounds is nearest to it, and even if another is as near. -/
theorem RoundsTo.nearest (h : RoundsTo q b) (hb : b < infinity) (c : Nat) :
    |value b - q| ≤ |value c - q| ∧ (|value b - q| = |value c - q| → c = b ∨ b % 2 = 0) := by
  rcases Nat.lt_trichotomy c b with hlt | rfl | hlt
  · obtain ⟨a, rfl⟩ : ∃ a, b = a + 1 := ⟨b - 1, by omega⟩
    have hvalue := value_strictMono hlt
    have hexceeds := h.exceeds a (Nat.lt_succ_self a)
    have hmiddle : (value c + value (a + 1)) / 2 ≤ midpoint a := by
      have := value_strictMono.monotone (Nat.lt_succ_iff.1 hlt)
      unfold midpoint
      linarith
    refine ⟨(abs_sub_le_iff_middle_le hvalue).2 (hmiddle.trans hexceeds.midpoint_le), ?_⟩
    intro heq
    have hq := (abs_sub_le_iff_le_middle hvalue).1 heq.ge
    obtain hlt | ⟨-, hodd⟩ := hexceeds
    · exact absurd (hq.trans hmiddle) (not_le.2 hlt)
    · omega
  · exact ⟨le_rfl, fun _ => .inl rfl⟩
  · have hvalue := value_strictMono hlt
    have hexceeds := h.not_exceeds hb
    have hq : q ≤ midpoint b := not_lt.1 fun hlt => hexceeds (.inl hlt)
    have hmiddle : midpoint b ≤ (value b + value c) / 2 := by
      have := value_strictMono.monotone hlt
      unfold midpoint
      linarith
    refine ⟨(abs_sub_le_iff_le_middle hvalue).2 (hq.trans hmiddle), ?_⟩
    intro heq
    have hle := (abs_sub_le_iff_middle_le hvalue).1 heq.ge
    have hodd : b % 2 ≠ 1 := fun hodd => hexceeds (.inr ⟨(hmiddle.trans hle).antisymm hq, hodd⟩)
    omega

/-! ## Signs -/

theorem abs_withSign_sub (negative : Bool) (u r : ℚ) :
    |withSign negative u - withSign negative r| = |u - r| := by
  cases negative with
  | false => rfl
  | true =>
    show |-u - -r| = |u - r|
    rw [neg_sub_neg, abs_sub_comm]

theorem abs_withSign_sub_of_ne {negative' : Bool} (h : negative' ≠ negative) (hu : 0 ≤ u)
    (hr : 0 ≤ r) : |withSign negative' u - withSign negative r| = u + r := by
  cases negative' with
  | false =>
    obtain rfl : negative = true := by simpa using h.symm
    show |u - -r| = u + r
    rw [sub_neg_eq_add, abs_of_nonneg (add_nonneg hu hr)]
  | true =>
    obtain rfl : negative = false := by simpa using h.symm
    show |-u - r| = u + r
    rw [← neg_add', abs_neg, abs_of_nonneg (add_nonneg hu hr)]

theorem withSign_inj : withSign negative u = withSign negative v ↔ u = v := by
  refine ⟨fun h => ?_, congrArg _⟩
  rw [← withSign_withSign negative u, h, withSign_withSign]

theorem magnitude_mod_two (x : Float) : magnitude x % 2 = x.toBits.toNat % 2 :=
  Nat.mod_mod_of_dvd _ (by decide)

/-- A finite number to whose magnitude a number rounds is nearest to it with its sign. -/
theorem isNearest_of_roundsTo (h : RoundsTo q (magnitude x)) (hq : 0 ≤ q)
    (hx : magnitude x < infinity) : IsNearest (withSign (isNegative x) q) x := by
  refine ⟨_, rational?_eq hx, fun y w hw => ?_⟩
  obtain rfl := eq_of_rational? hw
  rw [abs_withSign_sub, ← magnitude_mod_two]
  by_cases hsign : isNegative y = isNegative x
  · rw [hsign, abs_withSign_sub]
    obtain ⟨hle, heven⟩ := h.nearest hx (magnitude y)
    exact ⟨hle, fun heq => (heven heq).imp_left fun hyx => by rw [hyx]⟩
  · -- Zero lies between them and is not nearer.
    obtain ⟨hle, heven⟩ := h.nearest hx 0
    have hy := value_nonneg (magnitude y)
    rw [value_zero, zero_sub, abs_neg, abs_of_nonneg hq] at hle heven
    rw [abs_withSign_sub_of_ne hsign hy hq]
    refine ⟨hle.trans (le_add_of_nonneg_left hy), fun heq => ?_⟩
    have hyzero : value (magnitude y) = 0 := by linarith
    rw [hyzero, zero_add] at heq
    refine (heven heq).imp_left fun hx => ?_
    rw [hyzero, ← hx, value_zero, withSign_zero, withSign_zero]

/-- Between two even magnitudes that are equally near to a number lies one that is nearer. -/
theorem abs_sub_lt_of_even {a b : Nat} (hab : a < b) (ha : a % 2 = 0) (hb : b % 2 = 0)
    (heq : |value a - q| = |value b - q|) : |value (a + 1) - q| < |value a - q| := by
  have hlow := value_strictMono (Nat.lt_succ_self a)
  have hhigh := value_strictMono (show a + 1 < b by omega)
  have hmiddle := (abs_sub_le_iff_middle_le (hlow.trans hhigh)).1 heq.ge
  refine not_le.1 fun hle => ?_
  have := (abs_sub_le_iff_le_middle hlow).1 hle
  linarith

theorem IsNearest.magnitude_le (h : IsNearest r x) (h' : IsNearest r y)
    (hsign : isNegative y = isNegative x) : magnitude y ≤ magnitude x := by
  obtain ⟨v, hv, hx⟩ := h
  obtain ⟨w, hw, hy⟩ := h'
  have hhigh := lt_infinity_of_rational? hw
  have heq : |v - r| = |w - r| := (hx y w hw).1.antisymm (hy x v hv).1
  have hxw := (hx y w hw).2 heq
  have hyv := (hy x v hv).2 heq.symm
  obtain rfl := eq_of_rational? hv
  obtain rfl := eq_of_rational? hw
  obtain ⟨q, rfl⟩ : ∃ q, r = withSign (isNegative x) q := ⟨_, (withSign_withSign _ r).symm⟩
  by_contra hle
  have hlt : magnitude x < magnitude y := not_le.1 hle
  have hne := (value_strictMono hlt).ne
  rw [hsign] at heq hxw hyv
  rw [withSign_inj] at hxw hyv
  rw [abs_withSign_sub, abs_withSign_sub] at heq
  -- Between the two lies a number that is nearer.
  have hnearer := abs_sub_lt_of_even hlt ((magnitude_mod_two x).trans (hxw.resolve_left hne.symm))
    ((magnitude_mod_two y).trans (hyv.resolve_left hne)) heq
  have hle := (hx _ _ (rational?_ofMagnitude (isNegative x) (Nat.lt_of_le_of_lt hlt hhigh))).1
  rw [abs_withSign_sub, abs_withSign_sub] at hle
  exact absurd hle (not_le.2 hnearer)

/-- There is one nearest number of each sign. -/
theorem IsNearest.unique (h : IsNearest r x) (h' : IsNearest r y)
    (hsign : isNegative x = isNegative y) : x = y :=
  eq_of_magnitude_eq hsign ((h'.magnitude_le h hsign).antisymm (h.magnitude_le h' hsign.symm))

theorem le_of_roundsTo {q' : ℚ} (h : RoundsTo q (magnitude x)) (h' : RoundsTo q' (magnitude y))
    (hq : 0 ≤ q) (hq' : 0 ≤ q') (hle : withSign (isNegative x) q ≤ withSign (isNegative y) q') :
    x ≤ y := by
  rw [le_iff h.le_infinity h'.le_infinity]
  unfold ordinal
  generalize isNegative x = n at hle ⊢
  generalize isNegative y = n' at hle ⊢
  cases n with
  | false =>
    cases n' with
    | false =>
      have := h.mono h' hle
      rw [if_neg Bool.false_ne_true, if_neg Bool.false_ne_true]
      omega
    | true =>
      -- Both are zero.
      have hle : q ≤ -q' := hle
      have hx := h.eq_zero_iff.2 (by linarith [midpoint_pos 0])
      have hy := h'.eq_zero_iff.2 (by linarith [midpoint_pos 0])
      rw [hx, hy]
      decide
  | true =>
    cases n' with
    | false =>
      rw [if_neg Bool.false_ne_true, if_pos rfl]
      omega
    | true =>
      have := h'.mono h (neg_le_neg_iff.1 hle)
      rw [if_pos rfl, if_pos rfl]
      omega

/-! ## Reading -/

theorem Grammar.Finite.exists_roundsTo (h : Finite word.toList negative q) :
    ∃ x, ofWord? word = some x ∧ isNegative x = negative ∧ RoundsTo q (magnitude x) ∧ 0 ≤ q := by
  obtain ⟨hseparate, d, hread, rfl⟩ := h.exists_read?
  have hrounds := d.roundsTo_magnitude
  have hword : ofWord? word = some (ofMagnitude negative d.magnitude) :=
    ofWord?_eq_some_iff.2 ⟨hseparate, _, hread, rfl⟩
  refine ⟨_, hword, isNegative_ofMagnitude _ hrounds.le_infinity, ?_, ?_⟩
  · rwa [magnitude_ofMagnitude _ hrounds.le_infinity]
  · unfold Decimal.value
    positivity

end Rounding

/-- **Numbers are read correctly rounded**: to a nearest number, and to an even one if two are as
near, to the infinities from half a step beyond the greatest number on, to zero up to half a step,
and with the sign of the word always. A word of a greater number is not read as a less one. -/
theorem ofWord?_nearest {word : String} {negative : Bool} {q : ℚ}
    (h : Finite word.toList negative q) :
    ∃ x, ofWord? word = some x ∧ isNegative x = negative ∧
      (x.isInf ↔ 2 ^ 1024 - 2 ^ 970 ≤ q) ∧ (x == 0 ↔ q ≤ 2 ^ (-1075 : ℤ)) ∧
      (q < 2 ^ 1024 - 2 ^ 970 → IsNearest (withSign negative q) x ∧
        ∀ y, IsNearest (withSign negative q) y → isNegative y = negative → y = x) ∧
      ∀ (word' : String) negative' q', Finite word'.toList negative' q' →
        withSign negative q ≤ withSign negative' q' → ∃ y, ofWord? word' = some y ∧ x ≤ y := by
  obtain ⟨x, hword, hsign, hrounds, hq⟩ := h.exists_roundsTo
  have hinf : x.isInf ↔ 2 ^ 1024 - 2 ^ 970 ≤ q := by
    rw [isInf_iff, hrounds.eq_infinity_iff, midpoint_top]
  refine ⟨x, hword, hsign, hinf, ?_, fun htop => ?_, fun word' negative' q' h' hle => ?_⟩
  · rw [beq_zero_iff, hrounds.eq_zero_iff, midpoint_zero]
  · have hx : magnitude x < infinity := by
      refine lt_of_le_of_ne hrounds.le_infinity fun heq => ?_
      exact htop.not_ge (hinf.1 (isInf_iff.2 heq))
    have hnearest := isNearest_of_roundsTo hrounds hq hx
    rw [hsign] at hnearest
    exact ⟨hnearest, fun y hy hsign' => hy.unique hnearest (hsign'.trans hsign.symm)⟩
  · obtain ⟨y, hword', hsign', hrounds', hq'⟩ := h'.exists_roundsTo
    rw [← hsign, ← hsign'] at hle
    exact ⟨y, hword', le_of_roundsTo hrounds hrounds' hq hq' hle⟩

/-- A number half way between two is read as the even one of them. -/
theorem ofWord?_nearest_halfway : ∃ x, ofWord? "-9_007_199_254_740_993" = some x ∧
    x.toBits = 0xC340000000000000 ∧ isNegative x ∧ IsNearest (-9007199254740993) x := by
  have hread : Numeral.read? (ungrouped "-9_007_199_254_740_993".toList) =
      some (.finite true ⟨9007199254740993, 0⟩) := by decide
  have hvalue : Decimal.value ⟨9007199254740993, 0⟩ = 9007199254740993 := by
    norm_num [Decimal.value]
  have hfinite := finite_of_read? (by decide) hread
  rw [hvalue] at hfinite
  have htop : (9007199254740993 : ℚ) < 2 ^ 1024 - 2 ^ 970 := by
    have hall : (2 : ℚ) ^ 1024 = 2 ^ 54 * 2 ^ 970 := pow_add 2 54 970
    have hone : (1 : ℚ) ≤ 2 ^ 970 := one_le_pow₀ one_le_two
    rw [hall]
    generalize (2 : ℚ) ^ 970 = t at hone ⊢
    linarith
  have hbits : (ofWord? "-9_007_199_254_740_993").map Float.toBits = some 0xC340000000000000 := by
    decide +kernel
  obtain ⟨x, hword, hsign, -, -, hnearest, -⟩ := ofWord?_nearest hfinite
  rw [hword] at hbits
  exact ⟨x, hword, Option.some.inj hbits, hsign, (hnearest htop).1⟩

end LazyRegisters.Number
