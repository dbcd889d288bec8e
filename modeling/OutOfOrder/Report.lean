import OutOfOrder.Session

/-!
The state of a session as lines of text.
-/

set_option autoImplicit false

namespace OutOfOrder.Report

open Text

def number (value : Word) : String := String.ofList (Decimal.write value)

def arch (r : Register) : String := String.ofList r.text

def phys (r : Tag) : String := String.ofList r.text

def join (parts : List String) : String := " ".intercalate parts

def progress (s : Session) : String :=
  match s.machine.finishedAt with
  | some total => s!"Cycle {s.machine.cycle} (complete in {total} cycles)"
  | none => s!"Cycle {s.machine.cycle} ({s.snapshots.length} cycles can be rolled back)"

def destination (slot : Slot) : String :=
  match slot.arch, slot.tag with
  | some r, some tag => s!"{arch r}/{phys tag}"
  | none, some tag => phys tag
  | _, none => "-"

def slotLine (slot : Slot) (index : Nat) : String :=
  match slot.instr with
  | none => s!"  ROB{index}: empty"
  | some instr =>
    let use := if slot.busy then "busy" else "free"
    let result := (slot.result.map number).getD "-"
    s!"  ROB{index}: {padRight 5 use} {padRight 10 slot.state.text} {padRight 18 instr.render}" ++
      s!" dest {padRight 8 (destination slot)} result {padRight 6 result} ready {slot.ready}"

def buffer (b : ReorderBuffer) : List String :=
  s!"Reorder buffer ({b.size}/{b.capacity} in flight, head ROB{b.head}, tail ROB{b.tail}):" ::
    b.slots.toList.zipIdx.map fun (slot, index) => slotLine slot index

def pools (t : StationTable) : List String :=
  "Reservation stations:" :: FunctionalUnit.all.flatMap fun unit =>
    s!"  {unit.text}:" :: (t.pool unit).map fun station => "    " ++ station.render

def registers (f : RegisterFile) : List String :=
  ["Registers:",
    "  " ++ join (f.values.toList.zipIdx.map fun (value, index) => s!"R{index}={number value}")]

/-- An alias with the value of the physical register behind it. -/
def aliasEntry (f : PhysicalFile) (entry : Register × Tag) : Except Breach String := do
  return s!"{arch entry.1}->{phys entry.2}={number (← f.get entry.2)}"

def aliases (t : AliasTable) (f : PhysicalFile) : Except Breach (List String) := do
  if t.isEmpty then return ["Alias table: empty"]
  return ["Alias table: " ++ join (← t.toList.mapM (aliasEntry f))]

def physical (f : PhysicalFile) : List String :=
  let used := f.inUse.map fun (r, value) => s!"{phys r}={number value}"
  [s!"Physical registers in use ({used.length} of {f.count}): {join used}",
    if f.free.isEmpty then "Free registers: none" else "Free registers: " ++ join (f.free.map phys)]

def memory (m : Memory) : List String :=
  ["Memory: " ++ join (m.changed.map fun (address, value) => s!"[{address.toInt}]={number value}")]

def historyLine (h : History) : String :=
  let versions := h.versions.map fun v => s!"v{v.version}:{v.stage.text}"
  s!"  {padLeft 2 (toString h.current.position)} {padRight 18 h.current.instr.render} {join versions}"

def histories (f : Fetch) : List String :=
  s!"Instructions (fetch position {f.pc}):" :: f.histories.toList.map historyLine

/-- A committed position with the instruction that is current there. -/
def commitEntry (f : Fetch) (position : Nat) : Except Breach String := do
  return s!"{position}:{(← readAt f.histories position).current.instr.render}"

def commits (m : Machine) : Except Breach (List String) := do
  return ["Commit order: " ++ ", ".intercalate (← m.committedPositions.mapM (commitEntry m.fetch))]

def counters (m : Machine) : List String :=
  let c := m.counters
  let ipc := String.ofList (Decimal.writeFixed 3 m.ipc)
  [s!"Cycles: {c.cycles}  Committed: {c.committed}  Stalls: {c.stalls}  Squashed: {c.squashed}" ++
    s!"  IPC: {ipc}"]

def state (s : Session) : Except Breach (List String) := do
  let m := s.machine
  return progress s :: buffer m.rob ++ pools m.stations ++ registers m.registers ++
    (← aliases m.aliases m.physical) ++ physical m.physical ++ memory m.memory ++
    histories m.fetch ++ (← commits m) ++ counters m

end OutOfOrder.Report
