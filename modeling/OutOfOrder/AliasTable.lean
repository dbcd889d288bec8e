import OutOfOrder.Register

/-!
The alias table: for an architectural register with a writer in flight, the tag of the youngest one.
-/

set_option autoImplicit false

namespace OutOfOrder

structure AliasTable where
  table : Std.TreeMap Register Tag

namespace AliasTable

def empty : AliasTable := ⟨∅⟩

def get? (t : AliasTable) (r : Register) : Option Tag := t.table[r]?

def insert (t : AliasTable) (r : Register) (tag : Tag) : AliasTable := ⟨t.table.insert r tag⟩

def erase (t : AliasTable) (r : Register) : AliasTable := ⟨t.table.erase r⟩

/-- A younger writer keeps its alias when an older one retires. -/
def eraseIf (t : AliasTable) (r : Register) (tag : Tag) : AliasTable :=
  if t.get? r = some tag then t.erase r else t

@[simp] theorem get?_empty (r : Register) : empty.get? r = none := by simp [get?, empty]

theorem get?_insert (t : AliasTable) (r q : Register) (tag : Tag) :
    (t.insert r tag).get? q = if r = q then some tag else t.get? q := by
  simp [get?, insert, Std.TreeMap.getElem?_insert]

theorem get?_erase (t : AliasTable) (r q : Register) :
    (t.erase r).get? q = if r = q then none else t.get? q := by
  simp [get?, erase, Std.TreeMap.getElem?_erase]

/-- Sorted by architectural register. -/
def toList (t : AliasTable) : List (Register × Tag) := t.table.toList

def isEmpty (t : AliasTable) : Bool := t.table.isEmpty

end AliasTable

end OutOfOrder
