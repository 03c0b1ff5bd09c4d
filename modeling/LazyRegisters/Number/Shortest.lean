import LazyRegisters.Number.Decimal

/-!
# The shortest decimal that reads back

The decimals that round to a magnitude `b` form an interval: from the midpoint below `b` to the
midpoint above it, ends included iff the significand is even. `shortest b` searches the grids of
multiples of a power of ten from coarse to fine and takes the first that meets this interval. The
point nearest to `b` is chosen; of two equally near points, the upper one. The grid of `10 ^ -1074`
holds every finite magnitude, so the search ends there at the latest.
-/

namespace LazyRegisters.Number

/-- The multiple of `10 ^ p` nearest to magnitude `b` among those that round to `b`, divided by
`10 ^ p`. Lengths are compared in half units, times `10 ^ -p` where `p` is negative. -/
def gridPoint? (b : Nat) (p : Int) : Option Nat :=
  let shift := tenPow (-p).toNat
  let step := tenPow p.toNat * (2 * unitsOfOne)
  let low := (units (b - 1) + units b) * shift
  let high := (units b + units (b + 1)) * shift
  let value := 2 * units b * shift
  let rounds (x : Nat) : Bool :=
    if b % 2 = 0 then low ≤ x && x ≤ high else low < x && x < high
  let c := value / step
  let below := c * step
  let above := (c + 1) * step
  match rounds below, rounds above with
  | false, false => none
  | true, false => some c
  | false, true => some (c + 1)
  | true, true => some (if above - value ≤ value - below then c + 1 else c)

/-- The first grid from `10 ^ (n - 1074)` downwards that meets the rounding interval of `b`. -/
def coarsest (b : Nat) : Nat → Decimal
  | 0 => ⟨units b * Nat.pow 5 1074, -1074⟩
  | n + 1 =>
    match gridPoint? b ((n + 1 : Nat) - 1074) with
    | some c => ⟨c, (n + 1 : Nat) - 1074⟩
    | none => coarsest b n

/-- The exponent `k` with `10 ^ (k - 1) ≤ x < 10 ^ k` for the value `x` of magnitude `b`. -/
def decimalExponent (b : Nat) : Int :=
  if unitsOfOne ≤ units b then digitCount (units b / unitsOfOne)
  else 1 - digitCount ((unitsOfOne - 1) / units b)

/-- The decimal with the fewest digits that rounds to the finite magnitude `b`. -/
def shortest (b : Nat) : Decimal :=
  if b = 0 then ⟨0, 0⟩ else coarsest b (decimalExponent b + 1074).toNat

end LazyRegisters.Number
