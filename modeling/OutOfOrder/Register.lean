import OutOfOrder.Numeral
import OutOfOrder.Text.Blank
import OutOfOrder.Text.Uppercase
import Std.Data.TreeMap

/-!
Register names. Architectural registers are what a program names; physical ones hold renamed values and
serve as the tags on the result bus.
-/

set_option autoImplicit false

namespace OutOfOrder

structure Register where
  index : UInt16
  deriving DecidableEq, Repr

structure Tag where
  index : UInt16
  deriving DecidableEq, Repr

instance : Ord Register := ⟨compareOn (·.index)⟩

instance : Std.TransOrd Register :=
  inferInstanceAs (Std.TransCmp (compareOn Register.index))

instance : Std.LawfulEqOrd Register where
  eq_of_compare {a b} h := by
    have hi : a.index = b.index := Std.LawfulEqOrd.eq_of_compare h
    cases a; cases b; simp_all

def Register.text (r : Register) : List Char := 'R' :: Numeral.writeNat r.index.toNat

def Tag.text (r : Tag) : List Char := 'P' :: Numeral.writeNat r.index.toNat

/-- Reads a name in any case, with blanks around it and a plus before the number allowed. -/
def Register.read (name : List Char) : Option Register :=
  match Text.uppercase (Text.trim name) with
  | 'R' :: number =>
    match Numeral.readUnsigned 0xFFFF number with
    | .ok n => some ⟨UInt16.ofNat n⟩
    | .error _ => none
  | _ => none

end OutOfOrder
