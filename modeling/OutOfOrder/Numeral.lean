/-!
Whole numbers in decimal: written with the fewest digits, read within the bounds of a machine word. The
digits are checked and added one after the other, so of a foreign character and an overflow the one
met first decides the error.
-/

set_option autoImplicit false

namespace OutOfOrder.Numeral

inductive Refusal
  | empty
  | invalidDigit
  | tooLarge
  | tooSmall
  deriving DecidableEq, Repr

def Refusal.message : Refusal → String
  | .empty => "cannot parse integer from empty string"
  | .invalidDigit => "invalid digit found in string"
  | .tooLarge => "number too large to fit in target type"
  | .tooSmall => "number too small to fit in target type"

def writeNat (n : Nat) : List Char := Nat.toDigits 10 n

def writeInt : Int → List Char
  | .ofNat n => writeNat n
  | .negSucc n => '-' :: writeNat (n + 1)

def digitValue (c : Char) : Nat := c.toNat - '0'.toNat

/-- The number that `n` and the digits after it spell, if it and all on the way stay within the limit. -/
def readOnto (limit : Nat) (overflow : Refusal) (n : Nat) : List Char → Except Refusal Nat
  | [] => .ok n
  | c :: cs =>
    if c.isDigit then
      if 10 * n + digitValue c ≤ limit then readOnto limit overflow (10 * n + digitValue c) cs
      else .error overflow
    else .error .invalidDigit

/-- At least one digit. -/
def readDigits (limit : Nat) (overflow : Refusal) : List Char → Except Refusal Nat
  | [] => .error .invalidDigit
  | c :: cs => readOnto limit overflow 0 (c :: cs)

/-- A number up to the limit with an optional plus. -/
def readUnsigned (limit : Nat) : List Char → Except Refusal Nat
  | [] => .error .empty
  | '+' :: cs => readDigits limit .tooLarge cs
  | cs => readDigits limit .tooLarge cs

/-- A number with an optional sign, up to the limit or down to one more below zero. -/
def readSigned (limit : Nat) : List Char → Except Refusal Int
  | [] => .error .empty
  | '-' :: cs => (readDigits (limit + 1) .tooSmall cs).map fun n => -(n : Int)
  | '+' :: cs => (readDigits limit .tooLarge cs).map Int.ofNat
  | cs => (readDigits limit .tooLarge cs).map Int.ofNat

end OutOfOrder.Numeral
