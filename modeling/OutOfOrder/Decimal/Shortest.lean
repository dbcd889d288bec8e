import OutOfOrder.Decimal.Binary

/-!
The fewest decimal digits that read back. A decimal reads back when it lies between the two halfway
points to the neighbouring doubles, on them only if the mantissa is even. The coarsest power of ten
with a multiple in that interval is taken; of two multiples the nearer one, a tie goes up.
-/

set_option autoImplicit false

namespace OutOfOrder.Decimal

/-- The value `digits · 10 ^ exponent`. -/
structure Digits where
  digits : Nat
  exponent : Int
  deriving DecidableEq, Repr

/-- All reals, in quarters of the last bit of the mantissa, that round to a double. -/
structure Interval where
  low : Nat
  value : Nat
  high : Nat
  closed : Bool
  exponent : Int

/-- Just above a power of two the neighbour below is only half as far as the one above. -/
def Binary.interval (b : Binary) : Interval :=
  { low := 4 * b.mantissa - (if b.mantissa = hiddenBit then 1 else 2)
    value := 4 * b.mantissa
    high := 4 * b.mantissa + 2
    closed := b.mantissa % 2 = 0
    exponent := b.exponent - 2 }

/-- The multiple of `10 ^ k` in the interval that lies nearest to the value. -/
def Interval.multiple? (i : Interval) (k : Int) : Option Nat :=
  let unit := Nat.pow 2 i.exponent.toNat * Nat.pow 10 (-k).toNat
  let grid := Nat.pow 2 (-i.exponent).toNat * Nat.pow 10 k.toNat
  let reads (n : Nat) : Bool :=
    if i.closed then i.low * unit ≤ n * grid && n * grid ≤ i.high * unit
    else i.low * unit < n * grid && n * grid < i.high * unit
  let below := i.value * unit / grid
  let above := below + 1
  if reads below && reads above then
    if i.value * unit - below * grid < above * grid - i.value * unit then some below else some above
  else if reads below then some below
  else if reads above then some above
  else none

/-- Tries the grids `10 ^ k`, `10 ^ (k - 1)`, …; seventeen digits always read back. -/
def Interval.shortest (i : Interval) : Nat → Int → Digits
  | 0, k => ⟨0, k⟩
  | fuel + 1, k =>
    match i.multiple? k with
    | some n => ⟨n, k⟩
    | none => i.shortest fuel (k - 1)

/-- A power of ten above the value: `log₁₀ 2` is a little more than `30102 / 100000`. -/
def Binary.ceiling (b : Binary) : Int :=
  ((b.mantissa.log2 + 1 : Int) + b.exponent) * 30103 / 100000 + 2

/-- The shortest digits of a magnitude other than zero. -/
def Binary.shortest (b : Binary) : Digits :=
  b.interval.shortest 24 b.ceiling

example : Binary.shortest ⟨1, -1074⟩ = ⟨5, -324⟩ := by decide +kernel
example : Binary.shortest ⟨7205759403792794, -56⟩ = ⟨1, -1⟩ := by decide +kernel

end OutOfOrder.Decimal
