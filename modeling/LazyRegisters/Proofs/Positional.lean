import LazyRegisters.Number.Numeral

/-!
# Positional notation

A decimal in positional notation is digits before a point and digits behind it, without the point if
there are none behind it (`Decimal.positional_eq`). There are no superfluous zeros at either end as
long as the coefficient does not end in zero (`Decimal.canonical_parts`). Read as one number, both
parts are the coefficient with the zeros that a positive exponent puts behind it
(`Decimal.ofDigitChars_parts`).
-/

namespace LazyRegisters.Number

/-- A fraction behind its point; nothing if there is no fraction. -/
def pointed : List Char → List Char
  | [] => []
  | c :: cs => '.' :: c :: cs

/-- Digits before and behind a point, without superfluous zeros. -/
structure Canonical (whole fraction : List Char) : Prop where
  whole_ne_nil : whole ≠ []
  whole_digits : ∀ c ∈ whole, c.isDigit
  fraction_digits : ∀ c ∈ fraction, c.isDigit
  no_leading_zero : whole = ['0'] ∨ whole.head? ≠ some '0'
  no_trailing_zero : fraction.getLast? ≠ some '0'

/-! ## The digits of a number -/

theorem isDigit_of_mem_toDigits {n : Nat} {c : Char} (h : c ∈ Nat.toDigits 10 n) : c.isDigit :=
  Nat.isDigit_of_mem_toDigits (by decide) (by decide) h

theorem isDigit_of_mem_replicate {n : Nat} {c : Char} (h : c ∈ List.replicate n '0') :
    c.isDigit := by
  rw [(List.mem_replicate.1 h).2]
  decide

theorem head?_toDigits {n : Nat} (h : n ≠ 0) :
    ∃ c, (Nat.toDigits 10 n).head? = some c ∧ c ≠ '0' := by
  induction n using Nat.strongRecOn with
  | _ n ih =>
    rw [Nat.toDigits_eq_if (by decide)]
    split
    · exact ⟨n.digitChar, rfl, by simpa using h⟩
    · next hge =>
      obtain ⟨c, hc, hne⟩ := ih (n / 10) (by omega) (by omega)
      rw [List.head?_append, hc]
      exact ⟨c, rfl, hne⟩

theorem getLast?_toDigits (n : Nat) :
    (Nat.toDigits 10 n).getLast? = some (n % 10).digitChar := by
  rw [Nat.toDigits_eq_if (by decide)]
  split
  · next hlt =>
    rw [Nat.mod_eq_of_lt hlt]
    rfl
  · rw [List.getLast?_concat]

namespace Decimal

def places (d : Decimal) : Nat := (-d.exponent).toNat

def parts (d : Decimal) : List Char × List Char :=
  let digits := Nat.toDigits 10 d.coefficient
  if d.places = 0 then (digits ++ List.replicate d.exponent.toNat '0', [])
  else if d.places < digits.length then
    (digits.take (digits.length - d.places), digits.drop (digits.length - d.places))
  else (['0'], List.replicate (d.places - digits.length) '0' ++ digits)

variable {d : Decimal}

/-- The point stands behind the digits, between them or in front of them. -/
theorem parts_cases (d : Decimal) :
    (d.places = 0 ∧
      d.parts = (Nat.toDigits 10 d.coefficient ++ List.replicate d.exponent.toNat '0', [])) ∨
    (0 < d.places ∧ d.places < digitCount d.coefficient ∧
      d.parts = ((Nat.toDigits 10 d.coefficient).take (digitCount d.coefficient - d.places),
        (Nat.toDigits 10 d.coefficient).drop (digitCount d.coefficient - d.places))) ∨
    (0 < d.places ∧ digitCount d.coefficient ≤ d.places ∧
      d.parts = (['0'], List.replicate (d.places - digitCount d.coefficient) '0' ++
        Nat.toDigits 10 d.coefficient)) := by
  unfold digitCount parts
  dsimp only
  split
  · next hzero => exact .inl ⟨hzero, rfl⟩
  · next hpos =>
    split
    · next hlt => exact .inr (.inl ⟨Nat.pos_of_ne_zero hpos, hlt, rfl⟩)
    · next hge => exact .inr (.inr ⟨Nat.pos_of_ne_zero hpos, Nat.le_of_not_lt hge, rfl⟩)

theorem length_fraction (d : Decimal) : d.parts.2.length = d.places := by
  have hcount : (Nat.toDigits 10 d.coefficient).length = digitCount d.coefficient := rfl
  obtain ⟨hzero, hd⟩ | ⟨hpos, hlt, hd⟩ | ⟨hpos, hle, hd⟩ := d.parts_cases
  · rw [hd, hzero]
    rfl
  · rw [hd, List.length_drop]
    omega
  · rw [hd, List.length_append, List.length_replicate]
    omega

theorem pointed_of_ne_nil {cs : List Char} (h : cs ≠ []) : pointed cs = '.' :: cs := by
  cases cs with
  | nil => exact absurd rfl h
  | cons c cs => rfl

theorem fraction_ne_nil (h : 0 < d.places) : d.parts.2 ≠ [] := by
  rw [← d.length_fraction] at h
  exact List.ne_nil_of_length_pos h

/-- **Positional notation is digits before and behind a point.** -/
theorem positional_eq (d : Decimal) : d.positional = d.parts.1 ++ pointed d.parts.2 := by
  unfold positional
  dsimp only
  change (if d.places = 0 then _ else if d.places < digitCount d.coefficient then _ else _) = _
  obtain ⟨hzero, hd⟩ | ⟨hpos, hlt, hd⟩ | ⟨hpos, hle, hd⟩ := d.parts_cases
  · rw [hd, if_pos hzero]
    exact (List.append_nil _).symm
  · rw [pointed_of_ne_nil (fraction_ne_nil hpos), hd, if_neg (Nat.pos_iff_ne_zero.1 hpos),
      if_pos hlt]
    rfl
  · rw [pointed_of_ne_nil (fraction_ne_nil hpos), hd, if_neg (Nat.pos_iff_ne_zero.1 hpos),
      if_neg (Nat.not_lt_of_le hle)]
    rfl

/-- Both parts together are the digits, with zeros in front of them or behind. -/
theorem ofDigitChars_parts (d : Decimal) :
    Nat.ofDigitChars 10 (d.parts.1 ++ d.parts.2) 0 = d.coefficient * tenPow d.exponent.toNat := by
  have hdigits : Nat.ofDigitChars 10 (Nat.toDigits 10 d.coefficient) 0 = d.coefficient :=
    Nat.ofDigitChars_ten_toDigits
  have hone (hpos : 0 < d.places) : tenPow d.exponent.toNat = 1 := by
    have hexponent : d.exponent.toNat = 0 := by
      unfold places at hpos
      omega
    rw [hexponent]
    rfl
  obtain ⟨hzero, hd⟩ | ⟨hpos, hlt, hd⟩ | ⟨hpos, hle, hd⟩ := d.parts_cases
  · rw [hd, List.append_nil, Nat.ofDigitChars_append, hdigits, Nat.ofDigitChars_replicate_zero,
      Nat.mul_comm]
    rfl
  · rw [hd, List.take_append_drop, hdigits, hone hpos, Nat.mul_one]
  · have hzero : Nat.ofDigitChars 10 ['0'] 0 = 0 := by decide
    rw [hd, Nat.ofDigitChars_append, Nat.ofDigitChars_append, hzero,
      Nat.ofDigitChars_replicate_zero, Nat.mul_zero, hdigits, hone hpos, Nat.mul_one]

theorem isDigit_of_mem_parts {c : Char} (h : c ∈ d.parts.1 ++ d.parts.2) : c.isDigit := by
  obtain ⟨-, hd⟩ | ⟨-, -, hd⟩ | ⟨-, -, hd⟩ := d.parts_cases <;> rw [hd] at h
  · rw [List.append_nil, List.mem_append] at h
    exact h.elim isDigit_of_mem_toDigits isDigit_of_mem_replicate
  · rw [List.take_append_drop] at h
    exact isDigit_of_mem_toDigits h
  · rw [List.mem_append, List.mem_append, List.mem_singleton] at h
    rcases h with rfl | h | h
    · decide
    · exact isDigit_of_mem_replicate h
    · exact isDigit_of_mem_toDigits h

theorem whole_ne_nil (d : Decimal) : d.parts.1 ≠ [] := by
  have hnil : Nat.toDigits 10 d.coefficient ≠ [] := Nat.toDigits_ne_nil
  obtain ⟨-, hd⟩ | ⟨-, hlt, hd⟩ | ⟨-, -, hd⟩ := d.parts_cases <;> rw [hd]
  · exact List.append_ne_nil_of_left_ne_nil hnil _
  · rw [Ne, List.take_eq_nil_iff, not_or]
    exact ⟨by omega, hnil⟩
  · exact List.cons_ne_nil _ _

theorem head?_whole (h : d.coefficient ≠ 0) :
    d.parts.1 = ['0'] ∨ d.parts.1.head? ≠ some '0' := by
  obtain ⟨c, hc, hne⟩ := head?_toDigits h
  obtain ⟨-, hd⟩ | ⟨-, hlt, hd⟩ | ⟨-, -, hd⟩ := d.parts_cases <;> rw [hd]
  · right
    rw [List.head?_append, hc]
    exact fun heq => hne (Option.some.inj heq)
  · right
    rw [List.head?_take, if_neg (by omega), hc]
    exact fun heq => hne (Option.some.inj heq)
  · exact .inl rfl

theorem getLast?_fraction (h : ¬ 10 ∣ d.coefficient) : d.parts.2.getLast? ≠ some '0' := by
  have hlast := getLast?_toDigits d.coefficient
  have hne : some (d.coefficient % 10).digitChar ≠ some '0' := by
    rw [Ne, Option.some.injEq, Nat.digitChar_eq_zero]
    omega
  have hcount : (Nat.toDigits 10 d.coefficient).length = digitCount d.coefficient := rfl
  obtain ⟨-, hd⟩ | ⟨hpos, hlt, hd⟩ | ⟨-, -, hd⟩ := d.parts_cases <;> rw [hd]
  · nofun
  · rwa [List.getLast?_drop, if_neg (by omega), hlast]
  · rwa [List.getLast?_append, hlast]

theorem isDigit_of_mem_whole {c : Char} (h : c ∈ d.parts.1) : c.isDigit :=
  isDigit_of_mem_parts (List.mem_append_left _ h)

theorem isDigit_of_mem_fraction {c : Char} (h : c ∈ d.parts.2) : c.isDigit :=
  isDigit_of_mem_parts (List.mem_append_right _ h)

/-- **Positional notation has no superfluous zeros.** -/
theorem canonical_parts (h : ¬ 10 ∣ d.coefficient) : Canonical d.parts.1 d.parts.2 where
  whole_ne_nil := d.whole_ne_nil
  whole_digits _ := isDigit_of_mem_whole
  fraction_digits _ := isDigit_of_mem_fraction
  no_leading_zero := head?_whole fun hzero => h (hzero ▸ Nat.dvd_zero 10)
  no_trailing_zero := getLast?_fraction h

theorem canonical_parts_zero : Canonical (parts ⟨0, 0⟩).1 (parts ⟨0, 0⟩).2 where
  whole_ne_nil := whole_ne_nil _
  whole_digits _ := isDigit_of_mem_whole
  fraction_digits _ := isDigit_of_mem_fraction
  no_leading_zero := .inl rfl
  no_trailing_zero := by decide

end Decimal

end LazyRegisters.Number
