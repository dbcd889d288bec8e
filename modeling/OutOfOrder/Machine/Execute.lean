import OutOfOrder.Machine.Basic

/-!
Second phase. Every busy station whose operands are there counts down; one that waits counts a stall.
-/

set_option autoImplicit false

namespace OutOfOrder.Machine

/-- The first cycle in which the operands are there is when the execution starts. -/
def startExecution (m : Machine) (name : String) (i : Nat) (slot : Slot) : Machine :=
  if slot.times.execute.isNone then
    (m.modifySlot i fun s =>
      { s with state := .executing, times := { s.times with execute := some m.cycle } }).record
        (.started name slot.instr)
  else m

def completeExecution (m : Machine) (name : String) (i : Nat) (slot : Slot) : Machine :=
  let m := (m.modifySlot i fun s =>
    { s with times := { s.times with executeDone := some m.cycle } }).promote i .executed
  { m with counters := { m.counters with executed := m.counters.executed + 1 } }.record
    (.completed name slot.instr)

def executeStation (m : Machine) (i : Nat) : Except Halt Machine := do
  let station ← Halt.guarded (m.stations.station i)
  if !station.busy || station.remaining == 0 then return m
  if !station.isReady then
    return { m with counters := { m.counters with stalls := m.counters.stalls + 1 } }
  match station.dest.bind m.rob.slotFor with
  | none => return m
  | some k =>
    let slot ← Halt.guarded (m.rob.slot k)
    let m := m.startExecution station.name k slot
    let m := { m with stations := m.stations.modify i fun s => { s with remaining := s.remaining - 1 } }
    if station.remaining = 1 then return m.completeExecution station.name k slot
    else return m

def execute (m : Machine) : Except Halt Machine := (List.range m.stations.size).foldlM executeStation m

end OutOfOrder.Machine
