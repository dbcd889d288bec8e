import OutOfOrder.Opcode
import Std.Data.TreeMap

/-!
The configuration of a machine and its default.
-/

set_option autoImplicit false

namespace OutOfOrder

/-- The kinds of events that are reported as they happen; the event log holds all of them anyway. -/
structure Trace where
  issue : Bool
  execute : Bool
  writeResult : Bool
  commit : Bool
  stall : Bool
  squash : Bool
  cycle : Bool
  deriving DecidableEq, Repr

def Trace.all : Trace := ⟨true, true, true, true, true, true, true⟩

/-- The two register bounds name the highest register of their kind. The initial values are applied in
the order of their names, so of two names for one register the later wins. -/
structure Config where
  robCapacity : UInt16
  addStations : UInt16
  mulStations : UInt16
  loadStoreStations : UInt16
  branchStations : UInt16
  highestArch : UInt16
  highestPhys : UInt16
  maxCycles : UInt64
  memorySize : UInt32
  memoryStride : UInt32
  initialRegisters : Std.TreeMap String Word
  trace : Trace

namespace Config

def standard : Config :=
  { robCapacity := 8
    addStations := 3
    mulStations := 2
    loadStoreStations := 2
    branchStations := 1
    highestArch := 16
    highestPhys := 32
    maxCycles := 10000
    memorySize := 1000
    memoryStride := 4
    initialRegisters := ∅
    trace := .all }

def stations (c : Config) : FunctionalUnit → Nat
  | .addSub => c.addStations.toNat
  | .mulDiv => c.mulStations.toNat
  | .loadStore => c.loadStoreStations.toNat
  | .branch => c.branchStations.toNat

def archCount (c : Config) : Nat := c.highestArch.toNat + 1

/-- The count is a word of sixteen bits like the bound: no register is left beyond the last bound. -/
def physCount (c : Config) : Nat := (c.highestPhys + 1).toNat

end Config

end OutOfOrder
