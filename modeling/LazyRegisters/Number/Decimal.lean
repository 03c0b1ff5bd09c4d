import LazyRegisters.Number.Rounding

/-!
# Decimal numbers

A decimal is a whole coefficient times a power of ten. `Decimal.magnitude` rounds it to binary64;
`Decimal.positional` writes its digits without an exponent.
-/

namespace LazyRegisters.Number

/-- The number `coefficient * 10 ^ exponent`. -/
structure Decimal where
  coefficient : Nat
  exponent : Int
  deriving DecidableEq, Repr

/-- How many decimal digits `n` has; `0` has one. -/
def digitCount (n : Nat) : Nat := (Nat.toDigits 10 n).length

def tenPow (n : Nat) : Nat := Nat.pow 10 n

theorem digitCount_le_iff {n k : Nat} (h : 0 < k) : digitCount n ≤ k ↔ n < tenPow k :=
  Nat.length_toDigits_le_iff (by decide) h

namespace Decimal

/-- The magnitude nearest to the decimal. A value from `10 ^ 309` on is beyond every finite
magnitude, and one below `10 ^ -324` is nearer to zero than to any other, so no power of ten
beyond these bounds is computed. -/
def magnitude (d : Decimal) : Nat :=
  let top := d.exponent + digitCount d.coefficient
  if d.coefficient = 0 ∨ top < -323 then 0
  else if 309 < top then infinity
  else nearest (d.coefficient * tenPow d.exponent.toNat) (tenPow (-d.exponent).toNat)

/-- The digits of the decimal with zeros and a point where its exponent puts them. -/
def positional (d : Decimal) : List Char :=
  let digits := Nat.toDigits 10 d.coefficient
  let places := (-d.exponent).toNat
  if places = 0 then digits ++ List.replicate d.exponent.toNat '0'
  else if places < digits.length then
    digits.take (digits.length - places) ++ '.' :: digits.drop (digits.length - places)
  else '0' :: '.' :: (List.replicate (places - digits.length) '0' ++ digits)

end Decimal

end LazyRegisters.Number
