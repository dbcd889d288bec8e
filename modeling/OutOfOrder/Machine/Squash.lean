import OutOfOrder.Machine.Operand

/-!
A taken branch cancels what was issued after it. Fetch starts new versions of the squashed positions,
their slots stay in the ring as cancelled, their stations are freed and the aliases of the registers
they renamed go back to the youngest writer left.
-/

set_option autoImplicit false

namespace OutOfOrder.Machine

/-- The register that an instance in flight renames. -/
def renamedBy (m : Machine) (id : InstanceId) : Option Register :=
  (m.rob.slotOf id).bind fun i => m.rob.slots[i]?.bind (·.arch)

def releaseTag (m : Machine) (tag : Tag) : Machine :=
  match m.stations.stationFor tag with
  | some i => { m with stations := m.stations.release i }
  | none => m

/-- Cancels the slot of a squashed instance and frees its station. -/
def cancel (m : Machine) (id : InstanceId) : Machine :=
  let slot := m.rob.slotOf id
  let instr := (m.fetch.get? id).map Instance.instr
  let m := { m with counters := { m.counters with squashed := m.counters.squashed + 1 } }
  let m := match slot with
    | none => m
    | some i =>
      let tag := m.rob.slots[i]?.bind (·.tag)
      let m := m.modifySlot i fun s => { s with state := .cancelled, ready := false }
      match tag with
      | some tag => m.releaseTag tag
      | none => m
  m.record (.squashed instr id slot)

/-- Points an alias at the youngest writer that is left. -/
def realias (m : Machine) (r : Register) : Machine :=
  match (m.rob.youngestWriter r).bind fun i => m.rob.slots[i]?.bind (·.tag) with
  | some tag => { m with aliases := m.aliases.insert r tag }
  | none => { m with aliases := m.aliases.erase r }

/-- The effect of a branch taken at a position. -/
def squashYounger (m : Machine) (position : Nat) : Machine :=
  let squashed := m.fetch.issuedAfter position
  let renamed := squashed.filterMap m.renamedBy
  let cancelled := squashed.foldl cancel { m with fetch := m.fetch.renewAfter position }
  renamed.foldl realias cancelled

end OutOfOrder.Machine
