import OutOfOrder.Decimal.Read
import OutOfOrder.Numeral

/-!
Scalars and what they stand for. A plain one is null, a truth value, a number, or just its text; any other
is text, and a type tag decides in place of the notation.
-/

set_option autoImplicit false

namespace OutOfOrder.Yaml

structure Scalar where
  text : List Char
  plain : Bool
  deriving DecidableEq, Repr

/-- What stands where a value is missing. -/
def Scalar.absent : Scalar := ⟨['~'], true⟩

/-- The types that a scalar can be declared to have; one of any other is text. -/
inductive TypeTag
  | bool
  | int
  | float
  | null
  | other
  deriving DecidableEq, Repr

/-- Only the standard handle of two exclamation marks names a type. -/
def TypeTag.ofParts (handle name : List Char) : TypeTag :=
  if handle != "!!".toList then other
  else if name = "bool".toList then bool
  else if name = "int".toList then int
  else if name = "float".toList then float
  else if name = "null".toList then null
  else other

/-- `wide` is a whole number that takes more than 64 bits and at most 128. -/
inductive Value
  | null
  | bool (value : Bool)
  | integer (value : Int)
  | wide
  | float (value : Float)
  | text

def digitValue? (radix : Nat) (c : Char) : Option Nat :=
  let n :=
    if c.isDigit then c.toNat - '0'.toNat
    else if 'a' ≤ c ∧ c ≤ 'z' then c.toNat - 'a'.toNat + 10
    else if 'A' ≤ c ∧ c ≤ 'Z' then c.toNat - 'A'.toNat + 10
    else radix
  if n < radix then some n else none

/-- At least one digit and nothing else. -/
def readRadix (radix : Nat) : List Char → Option Nat
  | [] => none
  | cs => cs.foldlM (fun n c => (digitValue? radix c).map (radix * n + ·)) 0

def dropPlus : List Char → List Char
  | '+' :: cs => cs
  | cs => cs

/-- The radix that a number announces, and its digits. -/
def radixMark : List Char → Option (Nat × List Char)
  | '0' :: 'x' :: cs => some (16, cs)
  | '0' :: 'o' :: cs => some (8, cs)
  | '0' :: 'b' :: cs => some (2, cs)
  | _ => none

/-- A number with a radix mark that fits 64 bits, signed or not. -/
def readMarked (cs : List Char) : Option Int :=
  match cs with
  | '-' :: cs => do
    let (radix, digits) ← radixMark cs
    let n ← readRadix radix digits
    if 2 * n ≤ UInt64.size then some (-(n : Int)) else none
  | _ => do
    let (radix, digits) ← radixMark (dropPlus cs)
    let n ← readRadix radix (dropPlus digits)
    if n < UInt64.size then some n else none

/-- A whole number of up to 128 bits, signed or not. -/
def readWhole (cs : List Char) : Option Value :=
  match cs with
  | '-' :: cs => do
    let n ← readRadix 10 cs
    if 2 * n ≤ UInt64.size then some (.integer (-(n : Int)))
    else if 2 * n ≤ UInt64.size * UInt64.size then some .wide
    else none
  | _ => do
    let n ← readRadix 10 (dropPlus cs)
    if n < UInt64.size then some (.integer n)
    else if n < UInt64.size * UInt64.size then some .wide
    else none

/-- More than one digit and the first one a zero: text, whatever the sign. -/
def hasLeadingZero (cs : List Char) : Bool :=
  match cs.dropWhile fun c => c == '+' || c == '-' with
  | '0' :: d :: ds => (d :: ds).all Char.isDigit
  | _ => false

def spelled (names : List String) (cs : List Char) : Bool := names.any fun name => name.toList == cs

/-- The infinities and NaN begin with a point; any other number has to be finite. -/
def readReal (cs : List Char) : Option Float :=
  if spelled [".inf", ".Inf", ".INF"] (cs.dropWhile (· == '+')) then some Decimal.infinity
  else if spelled ["-.inf", "-.Inf", "-.INF"] cs then some (-Decimal.infinity)
  else if spelled [".nan", ".NaN", ".NAN"] cs then some Decimal.undefinedValue
  else do
    let x ← Decimal.readNumber cs
    match Decimal.magnitude x with
    | .finite _ => some x
    | _ => none

/-- What an untagged plain scalar stands for. -/
def plainValue (cs : List Char) : Value :=
  if spelled ["~", "null"] cs then .null
  else if spelled ["true"] cs then .bool true
  else if spelled ["false"] cs then .bool false
  else
    match readMarked cs with
    | some n => .integer n
    | none =>
      if hasLeadingZero cs then .text
      else
        match readWhole cs with
        | some v => v
        | none =>
          match readReal cs with
          | some x => .float x
          | none => .text

/-- What a scalar of a declared type stands for, if its text fits the type. -/
def TypeTag.value? (cs : List Char) : TypeTag → Option Value
  | bool =>
    if spelled ["true"] cs then some (.bool true)
    else if spelled ["false"] cs then some (.bool false)
    else none
  | int => (Numeral.readSigned 0x7FFFFFFFFFFFFFFF cs).toOption.map .integer
  | float => (Decimal.read cs).map .float
  | null => if spelled ["~", "null"] cs then some .null else none
  | other => some .text

def Scalar.value? (type : Option TypeTag) (s : Scalar) : Option Value :=
  match type with
  | some type => type.value? s.text
  | none => some (if s.plain then plainValue s.text else .text)

end OutOfOrder.Yaml
