import OutOfOrder.Breach
import OutOfOrder.Instance

/-!
The reorder buffer: a ring of slots in program order. `head` is the oldest slot in flight and `tail`
the next to be claimed; the slots in flight form one run from the head.
-/

set_option autoImplicit false

namespace OutOfOrder

inductive SlotState
  | processing
  | executing
  | written
  | cancelled
  | completed
  deriving DecidableEq, Repr

def SlotState.text : SlotState → String
  | .processing => "Processing"
  | .executing => "Executing"
  | .written => "Written"
  | .cancelled => "Cancelled"
  | .completed => "Completed"

/-- `arch` is the register that the slot renames, `tag` the physical one that stands for it. -/
structure Slot where
  busy : Bool
  instr : Option Instruction
  occupant : Option InstanceId
  state : SlotState
  arch : Option Register
  tag : Option Tag
  result : Option Word
  ready : Bool
  times : Times
  deriving DecidableEq, Repr

namespace Slot

def empty : Slot :=
  { busy := false, instr := none, occupant := none, state := .processing, arch := none, tag := none,
    result := none, ready := false, times := .none }

def claimed : Slot := { empty with busy := true }

/-- The last occupant stays visible; the tag does not, for its register is free again. -/
def released (s : Slot) : Slot := { s with busy := false, arch := none, tag := none, ready := false }

/-- In flight and not overtaken by a taken branch. -/
def isLive (s : Slot) : Bool := s.state != .cancelled

end Slot

@[ext]
structure ReorderBuffer where
  slots : Array Slot
  head : Nat
  tail : Nat
  head_lt : head < slots.size
  tail_lt : tail < slots.size
  deriving DecidableEq

namespace ReorderBuffer

def ofCapacity (capacity : Nat) : Except Breach ReorderBuffer :=
  if h : 0 < capacity then
    .ok { slots := Array.replicate capacity .empty, head := 0, tail := 0
          head_lt := by simpa using h, tail_lt := by simpa using h }
  else .error .capacityNotPositive

def capacity (b : ReorderBuffer) : Nat := b.slots.size

theorem capacity_pos (b : ReorderBuffer) : 0 < b.capacity := Nat.zero_lt_of_lt b.head_lt

/-- The slot `k` places after the head. Slot numbers are words of sixteen bits, so the sum wraps before
it is reduced. -/
def ring (b : ReorderBuffer) (k : Nat) : Nat := (b.head + k) % UInt16.size % b.capacity

theorem ring_lt (b : ReorderBuffer) (k : Nat) : b.ring k < b.slots.size :=
  Nat.mod_lt _ b.capacity_pos

def isBusy (b : ReorderBuffer) (i : Nat) : Bool := b.slots[i]?.any (·.busy)

/-- A full buffer is one whose tail is still occupied. -/
def hasRoom (b : ReorderBuffer) : Bool := !b.isBusy b.tail

def isEmpty (b : ReorderBuffer) : Bool := b.slots.all fun s => !s.busy

/-- The busy slots from the `k`-th place after the head on, up to the first that is free. -/
def busyFrom (b : ReorderBuffer) : Nat → Nat → List Nat
  | 0, _ => []
  | n + 1, k => if b.isBusy (b.ring k) then b.ring k :: b.busyFrom n (k + 1) else []

/-- The slots in flight, oldest first. -/
def inFlight (b : ReorderBuffer) : List Nat := b.busyFrom b.capacity 0

theorem busyFrom_eq_takeWhile (b : ReorderBuffer) (n k : Nat) :
    b.busyFrom n k = ((List.range' k n).map b.ring).takeWhile b.isBusy := by
  induction n generalizing k with
  | zero => rfl
  | succ n ih => simp [busyFrom, List.range'_succ, List.takeWhile_cons, ih]

theorem mem_inFlight_lt {b : ReorderBuffer} {i : Nat} (h : i ∈ b.inFlight) : i < b.slots.size := by
  rw [inFlight, busyFrom_eq_takeWhile] at h
  have := (List.takeWhile_subset _) h
  obtain ⟨k, _, rfl⟩ := List.mem_map.1 this
  exact b.ring_lt k

def size (b : ReorderBuffer) : Nat := b.inFlight.length

def slot (b : ReorderBuffer) (i : Nat) : Except Breach Slot := readAt b.slots i

def modify (b : ReorderBuffer) (i : Nat) (f : Slot → Slot) : ReorderBuffer :=
  { slots := b.slots.modify i f, head := b.head, tail := b.tail
    head_lt := by simpa using b.head_lt, tail_lt := by simpa using b.tail_lt }

@[simp] theorem capacity_modify (b : ReorderBuffer) (i : Nat) (f : Slot → Slot) :
    (b.modify i f).capacity = b.capacity := by simp [capacity, modify]

theorem getElem?_slots_modify (b : ReorderBuffer) (i j : Nat) (f : Slot → Slot) :
    (b.modify i f).slots[j]? = if i = j then b.slots[j]?.map f else b.slots[j]? := by
  simp [modify, Array.getElem?_modify]

/-- Claims the tail. -/
def allocate (b : ReorderBuffer) : Except Breach (Nat × ReorderBuffer) :=
  if b.hasRoom then
    .ok (b.tail,
      { slots := b.slots.set b.tail .claimed b.tail_lt, head := b.head
        tail := (b.tail + 1) % b.capacity
        head_lt := by simpa using b.head_lt
        tail_lt := by simpa [capacity] using Nat.mod_lt _ b.capacity_pos })
  else .error .noSpace

/-- Frees the head. -/
def retire (b : ReorderBuffer) : Except Breach (Nat × ReorderBuffer) :=
  if b.isBusy b.head then
    .ok (b.head,
      { slots := b.slots.modify b.head Slot.released, head := (b.head + 1) % b.capacity
        tail := b.tail
        head_lt := by simpa [capacity] using Nat.mod_lt _ b.capacity_pos
        tail_lt := by simpa using b.tail_lt })
  else .error .emptyHead

/-- The oldest slot in flight with a property. -/
def find (b : ReorderBuffer) (p : Slot → Bool) : Option Nat :=
  b.inFlight.find? fun i => b.slots[i]?.any p

def slotFor (b : ReorderBuffer) (tag : Tag) : Option Nat := b.find (·.tag == some tag)

def slotOf (b : ReorderBuffer) (id : InstanceId) : Option Nat := b.find (·.occupant == some id)

end ReorderBuffer

end OutOfOrder
