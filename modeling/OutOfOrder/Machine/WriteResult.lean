import OutOfOrder.Machine.Squash

/-!
First phase. Every station that was done executing before this cycle computes its result, writes it to
its slot and its physical register and broadcasts it. Loads and stores reach memory here, in table
order, and a taken branch squashes here.
-/

set_option autoImplicit false

namespace OutOfOrder

/-- What a computed value amounts to: a load takes the word at the address, a store puts its data there. -/
def Memory.access (memory : Memory) (op : Opcode) (computed data : Word) : Word × Memory :=
  match op with
  | .load => (memory.load (addressOf computed), memory)
  | .store => (data, memory.store (addressOf computed) data)
  | _ => (computed, memory)

namespace Machine

/-- Writes a result to a slot and to the register of its tag and tells the stations that wait for it. -/
def deliver (m : Machine) (station : Nat) (name : String) (slot : Nat) (tag : Tag) (result : Word)
    (instr : Option Instruction) : Except Halt Machine := do
  let m := m.modifySlot slot fun s =>
    { s with result := some result, ready := true, state := .written,
             times := { s.times with write := some m.cycle } }
  let physical ← Halt.guarded (m.physical.set tag result)
  let m := { m with physical }.promote slot .written
  let woken := m.stations.waiters tag
  let m := { m with
    stations := (m.stations.broadcast tag result).release station
    counters := { m.counters with written := m.counters.written + 1 } }
  return m.record (.written name slot result instr woken)

/-- The result of one station. A branch earlier in the same cycle may have freed the station since. -/
def writeResult (m : Machine) (i : Nat) : Except Halt Machine := do
  let station ← Halt.guarded (m.stations.station i)
  match station.busy, station.opcode, station.dest with
  | true, some op, some tag =>
    match m.rob.slotFor tag with
    | none => return m
    | some k =>
      let slot ← Halt.guarded (m.rob.slot k)
      match station.result with
      | .error _ =>
        throw (.fault ⟨(slot.occupant.map InstanceId.position).getD 0, slot.instr, m.cycle⟩)
      | .ok computed =>
        let (result, memory) := m.memory.access op computed (Station.operandValue station.right)
        let m ← { m with memory }.deliver i station.name k tag result slot.instr
        match op.isBranch && result == 1.0, slot.occupant with
        | true, some branch => return m.squashYounger branch.position
        | _, _ => return m
  | _, _, _ => return m

def writeResults (m : Machine) : Except Halt Machine := m.stations.finished.foldlM writeResult m

end Machine

end OutOfOrder
