/-!
# Magnitudes of binary64 numbers

The low 63 bits of a binary64 number, read as a natural number, are its *magnitude*. Magnitudes
below `infinity` are the finite ones: magnitude `b` stands for `units b` units, and `unitsOfOne`
units make the number one. `units` grows with `b`, so neighbouring magnitudes are neighbouring
numbers. Above `infinity` lie the magnitudes of what is not a number.
-/

namespace LazyRegisters.Number

/-- The number of magnitudes from one power of two to the next: two to the 52. -/
def binade : Nat := 0x10000000000000

/-- The magnitude of the infinities. -/
def infinity : Nat := 2047 * binade

/-- The number of units in one: the smallest positive number is one unit. -/
def unitsOfOne : Nat := 1 <<< 1074

/-- The leading bits of a magnitude: a subnormal one is its own significand. -/
def significand (b : Nat) : Nat := if b < binade then b else b % binade + binade

/-- How many times the significand is doubled. -/
def doublings (b : Nat) : Nat := b / binade - 1

/-- The number of units that the magnitude `b` stands for. -/
def units (b : Nat) : Nat := significand b <<< doublings b

/-- The bit that tells the sign. -/
def signBit : Nat := 0x8000000000000000

/-- The magnitude of a number: all its bits but the sign. -/
def magnitude (x : Float) : Nat := x.toBits.toNat % signBit

def isNegative (x : Float) : Bool := signBit ≤ x.toBits.toNat

/-- The number with the given sign and magnitude. -/
def ofMagnitude (negative : Bool) (b : Nat) : Float :=
  Float.ofBits (UInt64.ofNat (if negative then signBit + b else b))

/-- A magnitude that is not a number. -/
def notANumberMagnitude : Nat := infinity + binade / 2

theorem units_of_lt {b : Nat} (h : b < binade) : units b = b := by
  rw [units, significand, doublings, if_pos h, Nat.div_eq_of_lt h, Nat.zero_sub, Nat.shiftLeft_zero]

theorem significand_lt (b : Nat) : significand b < 2 * binade := by
  have : b % binade < binade := Nat.mod_lt b (by decide)
  unfold significand
  split <;> omega

end LazyRegisters.Number
