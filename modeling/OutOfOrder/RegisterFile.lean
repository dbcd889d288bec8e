import OutOfOrder.Breach
import OutOfOrder.Opcode
import OutOfOrder.Register

/-!
The committed values of the architectural registers, and the physical registers with the queue of those
that are free.
-/

set_option autoImplicit false

namespace OutOfOrder

structure RegisterFile where
  values : Array Word
  deriving DecidableEq

namespace RegisterFile

/-- Every register starts with its own number. -/
def ofCount (count : Nat) : RegisterFile :=
  ⟨((List.range count).map Float.ofNat).toArray⟩

def count (f : RegisterFile) : Nat := f.values.size

def get (f : RegisterFile) (r : Register) : Except Breach Word := readAt f.values r.index.toNat

def set (f : RegisterFile) (r : Register) (value : Word) : Except Breach RegisterFile :=
  (writeAt f.values r.index.toNat value).map RegisterFile.mk

/-- Replaces the value of a register that exists; any other name is passed over. -/
def preset (f : RegisterFile) (name : List Char) (value : Word) : RegisterFile :=
  match Register.read name with
  | some r => ⟨f.values.setIfInBounds r.index.toNat value⟩
  | none => f

end RegisterFile

structure PhysicalFile where
  free : List Tag
  values : Array Word
  deriving DecidableEq

namespace PhysicalFile

def ofCount (count : Nat) : PhysicalFile :=
  { free := (List.range count).map fun i => ⟨UInt16.ofNat i⟩
    values := Array.replicate count 0.0 }

def count (f : PhysicalFile) : Nat := f.values.size

def isFree (f : PhysicalFile) (r : Tag) : Bool := f.free.contains r

/-- Takes the register that has been free for longest. -/
def allocate (f : PhysicalFile) : Option (Tag × PhysicalFile) :=
  match f.free with
  | [] => none
  | r :: rest => some (r, { f with free := rest })

def get (f : PhysicalFile) (r : Tag) : Except Breach Word := readAt f.values r.index.toNat

def set (f : PhysicalFile) (r : Tag) (value : Word) : Except Breach PhysicalFile :=
  (writeAt f.values r.index.toNat value).map fun values => { f with values }

/-- Clears a register and puts it at the end of the queue. -/
def release (f : PhysicalFile) (r : Tag) : Except Breach PhysicalFile :=
  (writeAt f.values r.index.toNat 0.0).map fun values => { free := f.free ++ [r], values }

/-- The registers with their values that are not in the queue. -/
def inUse (f : PhysicalFile) : List (Tag × Word) :=
  (f.values.toList.zipIdx.map fun (value, i) => (⟨UInt16.ofNat i⟩, value)).filter
    fun (r, _) => !f.isFree r

end PhysicalFile

end OutOfOrder
