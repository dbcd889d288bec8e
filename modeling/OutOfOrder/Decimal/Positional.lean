import OutOfOrder.Decimal.Shortest
import OutOfOrder.Numeral

/-!
Doubles as text. They are written in positional notation, never with an exponent and without a
point on whole numbers; ratios are written with a fixed number of places.
-/

set_option autoImplicit false

namespace OutOfOrder.Decimal

/-- `digits · 10 ^ exponent` with the point, if any, after at least one digit. -/
def Digits.positional (d : Digits) : List Char :=
  let digits := Numeral.writeNat d.digits
  let places := (-d.exponent).toNat
  if places = 0 then digits ++ List.replicate d.exponent.toNat '0'
  else if digits.length ≤ places then
    '0' :: '.' :: List.replicate (places - digits.length) '0' ++ digits
  else digits.take (digits.length - places) ++ '.' :: digits.drop (digits.length - places)

/-- The text of a double; the sign of a zero is kept, that of a NaN is not. -/
def write (x : Float) : List Char :=
  let sign := if isNegative x then ['-'] else []
  match magnitude x with
  | .nan => "NaN".toList
  | .infinite => sign ++ "inf".toList
  | .finite b => sign ++ if b.mantissa = 0 then ['0'] else b.shortest.positional

/-- The quotient rounded to a whole number, a half to the even neighbour. -/
def roundDiv (num den : Nat) : Nat :=
  let q := num / den
  let twice := 2 * (num % den)
  if twice < den ∨ (twice = den ∧ q % 2 = 0) then q else q + 1

/-- A nonnegative finite double with exactly `places` places. -/
def writeFixed (places : Nat) (x : Float) : List Char :=
  match magnitude x with
  | .finite b =>
    let (num, den) := b.ratio (Nat.pow 10 places)
    let digits := Numeral.writeNat (roundDiv num den)
    let padded := List.replicate (places + 1 - digits.length) '0' ++ digits
    padded.take (padded.length - places) ++ '.' :: padded.drop (padded.length - places)
  | _ => write x

end OutOfOrder.Decimal
