import OutOfOrder.Machine.Basic

/-!
Last phase. At most the head of the reorder buffer retires: a cancelled slot without effect, any other
once its result was written in an earlier cycle.
-/

set_option autoImplicit false

namespace OutOfOrder.Machine

/-- Frees the head and gives its tag back. -/
def retire (m : Machine) (tag : Option Tag) : Except Breach Machine := do
  let (_, rob) ← m.rob.retire
  match tag with
  | none => return { m with rob }
  | some tag => return { m with rob, physical := ← m.physical.release tag }

/-- Written, and not in this very cycle. -/
def mayCommit (m : Machine) (slot : Slot) : Bool :=
  slot.ready && slot.times.write.any (· < m.cycle)

/-- Makes the result of the head architectural, if it renames a register. -/
def publish (m : Machine) (slot : Slot) : Except Breach Machine :=
  match slot.arch, slot.tag with
  | some r, some tag => do
    let registers ← m.registers.set r (slot.result.getD 0.0)
    return { m with registers, aliases := m.aliases.eraseIf r tag }
  | _, _ => .ok m

def commitMessage (slot : Slot) : Happening :=
  match slot.arch, slot.tag with
  | some r, some _ => .published slot.instr r (slot.result.getD 0.0)
  | _, _ => .committed slot.instr

def commitHead (m : Machine) (slot : Slot) : Except Breach Machine := do
  let m := (m.modifySlot m.rob.head fun s =>
    { s with state := .completed, times := { s.times with commit := some m.cycle } }).promote
      m.rob.head .committed
  let m ← m.publish slot
  let m ← m.retire slot.tag
  let m := { m with
    commits := match slot.occupant with
      | some id => m.commits.push id
      | none => m.commits
    counters := { m.counters with committed := m.counters.committed + 1 } }
  return m.record (commitMessage slot)

def commit (m : Machine) : Except Halt Machine := Halt.guarded do
  let head := m.rob.head
  let slot ← m.rob.slot head
  if !slot.busy then return m
  if !slot.isLive then
    let m ← m.retire slot.tag
    return m.record (.discarded slot.instr head)
  if m.mayCommit slot then m.commitHead slot else return m

end OutOfOrder.Machine
