import OutOfOrder.AliasTable
import OutOfOrder.Config
import OutOfOrder.Event
import OutOfOrder.Fetch
import OutOfOrder.Memory
import OutOfOrder.RegisterFile
import OutOfOrder.ReorderBuffer
import OutOfOrder.Station

/-!
The state of the machine between and within cycles, and the small moves that its phases share.
-/

set_option autoImplicit false

namespace OutOfOrder

structure Counters where
  issued : Nat
  executed : Nat
  written : Nat
  committed : Nat
  stalls : Nat
  squashed : Nat
  cycles : Nat
  deriving DecidableEq, Repr

def Counters.zero : Counters := ⟨0, 0, 0, 0, 0, 0, 0⟩

/-- `events` collects what happens in the running cycle; between cycles it is empty. -/
structure Machine where
  fetch : Fetch
  registers : RegisterFile
  physical : PhysicalFile
  aliases : AliasTable
  rob : ReorderBuffer
  stations : StationTable
  memory : Memory
  counters : Counters
  finishedAt : Option Nat
  commits : Array InstanceId
  events : Array Event

/-- What ends a cycle halfway. -/
inductive Halt
  | fault (fault : Fault)
  | breach (breach : Breach)

namespace Halt

def guarded {α : Type} : Except Breach α → Except Halt α
  | .ok a => .ok a
  | .error b => .error (.breach b)

@[simp] theorem guarded_ok {α : Type} (a : α) : guarded (.ok a) = .ok a := rfl

end Halt

namespace Machine

def cycle (m : Machine) : Nat := m.counters.cycles

def isComplete (m : Machine) : Bool := m.finishedAt.isSome

/-- Commits per cycle; zero until the program is complete. -/
def ipc (m : Machine) : Word :=
  match m.finishedAt with
  | some cycles =>
    if cycles = 0 then 0.0 else Float.ofNat m.counters.committed / Float.ofNat cycles
  | none => 0.0

def committedPositions (m : Machine) : List Nat := m.commits.toList.map InstanceId.position

def record (m : Machine) (what : Happening) : Machine :=
  { m with events := m.events.push ⟨m.cycle, what⟩ }

/-- A stall is counted and logged, and the issue tried again in a later cycle. -/
def stall (m : Machine) (shortage : Shortage) : Machine :=
  { m with counters := { m.counters with stalls := m.counters.stalls + 1 } }.record (.stalled shortage)

def modifySlot (m : Machine) (i : Nat) (f : Slot → Slot) : Machine := { m with rob := m.rob.modify i f }

/-- Moves the instance in a slot to a stage and hands it the slot's times. -/
def promote (m : Machine) (i : Nat) (stage : Stage) : Machine :=
  match m.rob.slots[i]? with
  | none => m
  | some slot =>
    match slot.occupant with
    | none => m
    | some id => { m with fetch := m.fetch.modify id fun v => { v with stage, times := slot.times } }

/-- Complete once every current instance is retired and no slot is in flight. -/
def settle (m : Machine) : Machine :=
  if m.fetch.isDone && m.rob.isEmpty then
    { m with finishedAt := some m.cycle }.record .finished
  else m

/-- The machine before its first cycle. An empty program is complete at once. -/
def initial (config : Config) (code : List Instruction) : Except Breach Machine := do
  let rob ← ReorderBuffer.ofCapacity config.robCapacity.toNat
  let registers := config.initialRegisters.toList.foldl
    (fun file (name, value) => file.preset name.toList value) (RegisterFile.ofCount config.archCount)
  return settle
    { fetch := .ofCode code
      registers
      physical := .ofCount config.physCount
      aliases := .empty
      rob
      stations := .ofCounts config.stations
      memory := .ofSeeds config.memorySize.toNat config.memoryStride.toNat
      counters := .zero
      finishedAt := none
      commits := #[]
      events := #[] }

end Machine

end OutOfOrder
