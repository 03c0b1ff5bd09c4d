import LazyRegisters.Number.Magnitude

/-!
# Rounding a quotient to the nearest magnitude

`nearest num den` is the magnitude whose value is nearest to `num / den`; of two equally near ones
it is the one with the even significand. Everything is exact arithmetic on natural numbers: the
quotient is brought to units, halved until 53 bits remain, and rounded once. Adding the halvings to
the exponent also carries a significand that was rounded up to the next power of two.
-/

namespace LazyRegisters.Number

/-- The natural number nearest to `n / d`, a half going to the even neighbour. -/
def roundQuotient (n d : Nat) : Nat :=
  if 2 * (n % d) < d then n / d
  else if d < 2 * (n % d) then n / d + 1
  else n / d + n / d % 2

/-- The magnitude nearest to `num / den`. Quotients from the midpoint above the largest finite
magnitude on go to `infinity`. -/
def nearest (num den : Nat) : Nat :=
  let n := num * unitsOfOne
  let halvings := (n / den).log2 - 52
  let b := roundQuotient n (den <<< halvings) + halvings * binade
  if b < infinity then b else infinity

/-- The rounded quotient is within one half of the quotient. -/
theorem roundQuotient_near (n d : Nat) (h : 0 < d) :
    2 * n ≤ 2 * (roundQuotient n d * d) + d ∧ 2 * (roundQuotient n d * d) ≤ 2 * n + d := by
  have hn := Nat.div_add_mod n d
  have hr := Nat.mod_lt n h
  rw [Nat.mul_comm d] at hn
  unfold roundQuotient
  generalize n / d = q at *
  generalize n % d = r at *
  split
  · omega
  · split
    · rw [Nat.add_mul]; omega
    · rcases Nat.mod_two_eq_zero_or_one q with hq | hq
      · rw [hq, Nat.add_zero]; omega
      · rw [hq, Nat.add_mul]; omega

end LazyRegisters.Number
