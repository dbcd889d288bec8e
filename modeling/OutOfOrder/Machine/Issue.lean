import OutOfOrder.Machine.Operand

/-!
Third phase. At most one instruction is issued, in program order. It needs a slot, a station of its unit
and a physical register, and stalls when one of them is missing.
-/

set_option autoImplicit false

namespace OutOfOrder.Machine

/-- Renames the destination; the new register starts with the committed value. -/
def rename (m : Machine) (dest : Option Register) (tag : Tag) : Except Breach Machine :=
  match dest with
  | none => .ok m
  | some r => do
    let physical ← m.physical.set tag (← m.registers.get r)
    return { m with physical, aliases := m.aliases.insert r tag }

/-- Gives the instruction at the cursor a slot, the station `s` and the tag. The operands were resolved
before the slot exists, so an instruction never waits for itself. -/
def dispatch (m : Machine) (v : Instance) (s : Nat) (left : Operand) (right : Option Operand)
    (tag : Tag) : Except Halt Machine := do
  let (slot, rob) ← Halt.guarded m.rob.allocate
  let m := { m with rob }.modifySlot slot fun entry =>
    { entry with instr := some v.instr, occupant := some v.id, state := .processing, arch := v.instr.dest,
                 tag := some tag, times := { entry.times with issue := some m.cycle } }
  let m ← Halt.guarded (m.rename v.instr.dest tag)
  let station ← Halt.guarded (m.stations.station s)
  let m := { m with stations := m.stations.modify s fun entry =>
    { entry with busy := true, opcode := some v.instr.opcode, left := some left, right,
                 imm := v.instr.imm, dest := some tag, remaining := v.instr.opcode.latency } }
  let m := m.promote slot .issued
  let m := { m with
    fetch := m.fetch.advance
    counters := { m.counters with issued := m.counters.issued + 1 } }
  return m.record (.issued v.instr slot station.name tag)

def issue (m : Machine) : Except Halt Machine := do
  match m.fetch.next? with
  | none => return m
  | some v =>
    if !m.rob.hasRoom then return m.stall (.slot v.instr m.rob.head)
    match m.stations.idleIn v.instr.opcode.unit with
    | none => return m.stall (.station v.instr)
    | some s =>
      let (left, right) ← Halt.guarded (m.operands v.instr)
      match m.physical.allocate with
      | none => return m.stall (.register v.instr)
      | some (tag, physical) => Machine.dispatch { m with physical } v s left right tag

end OutOfOrder.Machine
