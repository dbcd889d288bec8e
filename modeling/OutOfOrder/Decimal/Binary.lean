/-!
Doubles as exact numbers: a finite one is `mantissa · 2 ^ exponent`.
-/

set_option autoImplicit false

namespace OutOfOrder.Decimal

/-- The magnitude `mantissa · 2 ^ exponent`. -/
structure Binary where
  mantissa : Nat
  exponent : Int
  deriving DecidableEq, Repr

inductive Magnitude
  | nan
  | infinite
  | finite (value : Binary)
  deriving DecidableEq, Repr

/-- The leading bit of a normal mantissa, which is not stored. -/
def hiddenBit : Nat := 0x10000000000000

/-- Below the smallest normal exponent the leading bit of the mantissa is not implied. -/
def Magnitude.ofBits (bits : Nat) : Magnitude :=
  let field : Nat := bits / hiddenBit % 2048
  let fraction : Nat := bits % hiddenBit
  if field = 2047 then if fraction = 0 then .infinite else .nan
  else if field = 0 then .finite ⟨fraction, -1074⟩
  else .finite ⟨hiddenBit + fraction, (field : Int) - 1075⟩

def magnitude (x : Float) : Magnitude := .ofBits x.toBits.toNat

/-- The sign bit, which zero has too. -/
def isNegative (x : Float) : Bool := 2048 ≤ x.toBits.toNat / hiddenBit

/-- Numerator and denominator of the value times `scale`. -/
def Binary.ratio (b : Binary) (scale : Nat) : Nat × Nat :=
  (b.mantissa * scale * Nat.pow 2 b.exponent.toNat, Nat.pow 2 (-b.exponent).toNat)

example : magnitude 1.5 = .finite ⟨3 * (hiddenBit / 2), -52⟩ := by decide +kernel
example : isNegative (-0.0) = true := by decide +kernel

end OutOfOrder.Decimal
