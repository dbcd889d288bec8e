import OutOfOrder.Decimal.Binary
import OutOfOrder.Opcode
import Std.Data.TreeMap

/-!
Flat memory of words. It starts with the multiples of a stride below a size, each holding its own
address; any other address reads as zero until it is written.
-/

set_option autoImplicit false

namespace OutOfOrder

abbrev Address := Int64

/-- The magnitude without its fraction. -/
def Decimal.Binary.truncate (b : Decimal.Binary) : Nat :=
  b.mantissa * Nat.pow 2 b.exponent.toNat / Nat.pow 2 (-b.exponent).toNat

/-- The whole part of a computed address, or the bound that it exceeds; NaN addresses zero. -/
def addressOf (x : Word) : Address :=
  match Decimal.magnitude x with
  | .nan => 0
  | .infinite => if Decimal.isNegative x then Int64.minValue else Int64.maxValue
  | .finite b =>
    if Decimal.isNegative x then Int64.ofInt (max (-(b.truncate : Int)) Int64.minValue.toInt)
    else Int64.ofInt (min (b.truncate : Int) Int64.maxValue.toInt)

structure Memory where
  words : Std.TreeMap Address Word

namespace Memory

/-- The multiples of the stride below the size; a stride of zero counts as one. -/
def seeds (size stride : Nat) : List Nat :=
  (List.range ((size + (max stride 1 - 1)) / max stride 1)).map (· * max stride 1)

def ofSeeds (size stride : Nat) : Memory :=
  ⟨(seeds size stride).foldl (fun words n => words.insert (Int64.ofNat n) (Float.ofNat n)) ∅⟩

def load (m : Memory) (a : Address) : Word := m.words.getD a 0.0

def store (m : Memory) (a : Address) (value : Word) : Memory := ⟨m.words.insert a value⟩

/-- Sorted by address. -/
def toList (m : Memory) : List (Address × Word) := m.words.toList

def count (m : Memory) : Nat := m.words.size

/-- The words that differ from their address, as a NaN always does. -/
def changed (m : Memory) : List (Address × Word) :=
  m.toList.filter fun (a, value) => Float.ofInt a.toInt != value

/-- The same addresses with equal values; a NaN is not equal to itself. -/
def same (m n : Memory) : Bool :=
  m.count == n.count &&
    (m.toList.zip n.toList).all fun (x, y) => x.1 == y.1 && x.2 == y.2

end Memory

end OutOfOrder
