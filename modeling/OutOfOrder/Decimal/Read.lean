import OutOfOrder.Decimal.Positional

/-!
Decimal text as doubles: an optional sign, digits with at most one point and at least one digit, an
optional exponent; or the names of the infinities and of NaN in any case.
-/

set_option autoImplicit false

namespace OutOfOrder.Decimal

def infinity : Float := 1.0 / 0.0

/-- The double that is no number. -/
def undefinedValue : Float := 0.0 / 0.0

/-- Splits off the sign; `true` is a minus. -/
def readSign : List Char → Bool × List Char
  | '-' :: cs => (true, cs)
  | '+' :: cs => (false, cs)
  | cs => (false, cs)

/-- The digits with the exponent of the last one, and what follows them. -/
def readMantissa (cs : List Char) : Option (Digits × List Char) :=
  let whole := cs.takeWhile Char.isDigit
  let rest := cs.dropWhile Char.isDigit
  let (places, tail) := match rest with
    | '.' :: rest => (rest.takeWhile Char.isDigit, rest.dropWhile Char.isDigit)
    | _ => ([], rest)
  if whole.isEmpty && places.isEmpty then none
  else some (⟨Nat.ofDigitChars 10 (whole ++ places) 0, -places.length⟩, tail)

/-- Nothing, or an `e` and a whole number up to the end of the text. -/
def readExponent : List Char → Option Int
  | [] => some 0
  | c :: cs =>
    let (negative, ds) := readSign cs
    if (c = 'e' ∨ c = 'E') ∧ ds ≠ [] ∧ ds.all Char.isDigit then
      some (if negative then -(Nat.ofDigitChars 10 ds 0 : Int) else Nat.ofDigitChars 10 ds 0)
    else none

/-- The nearest double. Exponents far outside the range of doubles only say zero or infinity. -/
def Digits.toFloat (d : Digits) : Float :=
  if d.digits = 0 then 0.0
  else
    let top : Int := d.exponent + (Numeral.writeNat d.digits).length
    if 400 < top then infinity
    else if top < -400 then 0.0
    else Float.ofScientific d.digits (d.exponent < 0) d.exponent.natAbs

/-- A number in digits, without the names of the infinities and of NaN. -/
def readNumber (cs : List Char) : Option Float := do
  let (negative, unsigned) := readSign cs
  let (d, tail) ← readMantissa unsigned
  let e ← readExponent tail
  let x := (Digits.mk d.digits (d.exponent + e)).toFloat
  some (if negative then -x else x)

def readName (cs : List Char) : Option Float :=
  let (negative, unsigned) := readSign cs
  let name := unsigned.map Char.toLower
  if name = "nan".toList then some undefinedValue
  else if name = "inf".toList || name = "infinity".toList then
    some (if negative then -infinity else infinity)
  else none

def read (cs : List Char) : Option Float := readNumber cs <|> readName cs

end OutOfOrder.Decimal
