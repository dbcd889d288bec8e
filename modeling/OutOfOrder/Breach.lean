/-!
Broken contracts: a component used outside what it promises to serve.
-/

set_option autoImplicit false

namespace OutOfOrder

inductive Breach
  | capacityNotPositive
  | noSpace
  | emptyHead
  | outOfBounds
  deriving DecidableEq, Repr

def Breach.message : Breach → String
  | .capacityNotPositive => "ROB: capacity must be positive"
  | .noSpace => "ROB: Can't allocate if no space."
  | .emptyHead => "ROB: can't retire an empty head"
  | .outOfBounds => "index out of bounds"

/-- The element at an index that has to lie within the array. -/
def readAt {α : Type} (xs : Array α) (i : Nat) : Except Breach α :=
  if h : i < xs.size then .ok xs[i] else .error .outOfBounds

theorem readAt_of_lt {α : Type} {xs : Array α} {i : Nat} (h : i < xs.size) :
    readAt xs i = .ok xs[i] := by simp [readAt, h]

theorem readAt_eq_ok_iff {α : Type} {xs : Array α} {i : Nat} {x : α} :
    readAt xs i = .ok x ↔ xs[i]? = some x := by
  by_cases h : i < xs.size <;> simp [readAt, h]

/-- Replaces the element at an index that has to lie within the array. -/
def writeAt {α : Type} (xs : Array α) (i : Nat) (x : α) : Except Breach (Array α) :=
  if h : i < xs.size then .ok (xs.set i x) else .error .outOfBounds

theorem writeAt_of_lt {α : Type} {xs : Array α} {i : Nat} {x : α} (h : i < xs.size) :
    writeAt xs i x = .ok (xs.set i x) := by simp [writeAt, h]

end OutOfOrder
