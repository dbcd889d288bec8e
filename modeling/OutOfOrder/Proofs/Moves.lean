import OutOfOrder.Proofs.Window
import OutOfOrder.Session

/-!
A cycle as a sequence of small moves, and what the moves of a run leave behind: the computations in the order
in which they happened, and the values that retired.
-/

set_option autoImplicit false

namespace OutOfOrder

/-- A station wrote the result of a version; this is the station as it was then. -/
structure Computation where
  id : InstanceId
  station : Station
  result : Word

namespace Computation

/-- What the station had to store. -/
def data (c : Computation) : Word := Station.operandValue c.station.right

/-- Computes with the given memory: the result, and the memory after it. -/
def perform (c : Computation) (memory : Memory) : Word × Memory :=
  match c.station.opcode, c.station.result with
  | some op, .ok computed => memory.access op computed c.data
  | _, _ => (c.result, memory)

end Computation

inductive Deed
  | computed (c : Computation)
  | retired (value : Word)

namespace Deed

def computation? : Deed → Option Computation
  | computed c => some c
  | retired _ => none

def value? : Deed → Option Word
  | computed _ => none
  | retired value => some value

end Deed

def computations (trace : List Deed) : List Computation := trace.filterMap Deed.computation?

def retirements (trace : List Deed) : List Word := trace.filterMap Deed.value?

namespace Machine

/-- What a station is about to write. -/
def computation? (m : Machine) (i : Nat) : Option Computation := do
  let station ← m.stations.stations[i]?
  let op ← if station.busy then station.opcode else none
  let tag ← station.dest
  let slot ← (m.rob.slotFor tag).bind (m.rob.slots[·]?)
  let id ← slot.occupant
  let computed ← station.result.toOption
  return ⟨id, station, (m.memory.access op computed (Station.operandValue station.right)).1⟩

/-- What the stations write one after the other. -/
def computationsOf : List Nat → Machine → List Computation
  | [], _ => []
  | i :: rest, m =>
    (m.computation? i).toList ++
      match m.writeResult i with
      | .ok m => computationsOf rest m
      | .error _ => []

/-- The value of the head, if the last phase is about to make it architectural. -/
def retiring? (m : Machine) : Option Word := do
  let slot ← m.rob.slots[m.rob.head]?
  if slot.busy && slot.isLive && m.mayCommit slot then some (slot.result.getD 0.0) else none

/-- The phases before the last. -/
def beforeCommit (m : Machine) : Except Halt Machine := do
  let m ← m.tick.writeResults
  let m ← m.execute
  m.issue

/-- What happens in a cycle from this machine on. -/
def deeds (m : Machine) : List Deed :=
  (computationsOf m.tick.stations.finished m.tick).map .computed ++
    match m.beforeCommit with
    | .ok m => (m.retiring?.map .retired).toList
    | .error _ => []

/-- Counts a cycle off. -/
def countdown (m : Machine) (i : Nat) : Machine :=
  { m with stations := m.stations.modify i fun s => { s with remaining := s.remaining - 1 } }

/-- One thing at a time; `k` counts the slots from the head on. -/
inductive Move (m : Machine) : List Deed → Machine → Prop
  | compute {i k : Nat} {st : Station} {s : Slot} {op : Opcode} {tag : Tag} {id : InstanceId}
      {computed : Word} {m' : Machine} (station : m.stations.stations[i]? = some st)
      (busy : st.busy = true) (done : st.remaining = 0) (opcode : st.opcode = some op)
      (dest : st.dest = some tag) (slot : m.rob.window[k]? = some s) (named : s.tag = some tag)
      (occupant : s.occupant = some id) (result : st.result = .ok computed)
      (delivered : { m with
          memory := (m.memory.access op computed (Station.operandValue st.right)).2 }.deliver i st.name
        (m.rob.place k) tag (m.memory.access op computed (Station.operandValue st.right)).1 s.instr =
          .ok m') :
      Move m [.computed ⟨id, st, (m.memory.access op computed (Station.operandValue st.right)).1⟩] m'
  | squash {s : Slot} {id : InstanceId} {instr : Instruction} (slot : s ∈ m.rob.window)
      (live : s.isLive = true) (occupant : s.occupant = some id) (holds : s.instr = some instr)
      (branch : instr.opcode.isBranch = true) : Move m [] (m.squashYounger id.position)
  | wait : Move m [] { m with counters := { m.counters with stalls := m.counters.stalls + 1 } }
  | start {i k : Nat} {st : Station} {s : Slot} (name : String)
      (station : m.stations.stations[i]? = some st) (busy : st.busy = true)
      (slot : m.rob.window[k]? = some s) (named : s.tag = st.dest) :
      Move m [] (m.startExecution name (m.rob.place k) s)
  | countdown {i : Nat} {st : Station} (station : m.stations.stations[i]? = some st)
      (busy : st.busy = true) (ready : st.isReady = true) (more : 1 < st.remaining) :
      Move m [] (m.countdown i)
  | complete {i k : Nat} {st : Station} {s : Slot} (name : String) (shown : Slot)
      (station : m.stations.stations[i]? = some st) (busy : st.busy = true)
      (ready : st.isReady = true) (last : st.remaining = 1) (slot : m.rob.window[k]? = some s)
      (named : s.tag = st.dest) : Move m [] ((m.countdown i).completeExecution name (m.rob.place k) shown)
  | stall (shortage : Shortage) : Move m [] (m.stall shortage)
  | issue {v : Instance} {i : Nat} {left : Operand} {right : Option Operand} {tag : Tag}
      {physical : PhysicalFile} {m' : Machine} (next : m.fetch.next? = some v)
      (station : m.stations.idleIn v.instr.opcode.unit = some i)
      (operands : m.operands v.instr = .ok (left, right))
      (register : m.physical.allocate = some (tag, physical))
      (dispatched : Machine.dispatch { m with physical } v i left right tag = .ok m') : Move m [] m'
  | commit {s : Slot} {rest : List Slot} {m' : Machine} (head : m.rob.window = s :: rest)
      (live : s.isLive = true) (may : m.mayCommit s = true) (committed : m.commitHead s = .ok m') :
      Move m [.retired (s.result.getD 0.0)] m'
  | discard {s : Slot} {rest : List Slot} {m' : Machine} (head : m.rob.window = s :: rest)
      (dead : s.isLive = false) (retired : m.retire s.tag = .ok m') :
      Move m [] (m'.record (.discarded s.instr m.rob.head))

/-- Any number of moves, with all they leave behind. -/
inductive Moves : Machine → List Deed → Machine → Prop
  | refl (m : Machine) : Moves m [] m
  | step {m m' m'' : Machine} {d ds : List Deed} (first : Move m d m') (rest : Moves m' ds m'') :
      Moves m (d ++ ds) m''

namespace Moves

variable {m m' m'' : Machine} {d ds : List Deed}

theorem single (h : Move m d m') : Moves m d m' := by
  have hs := Moves.step h (.refl m')
  rwa [List.append_nil] at hs

theorem trans (h : Moves m d m') (h' : Moves m' ds m'') : Moves m (d ++ ds) m'' := by
  induction h with
  | refl => exact h'
  | step first _ ih =>
    rw [List.append_assoc]
    exact .step first (ih h')

/-- What every move keeps, with what it adds to the trace, any number of moves keep. -/
theorem keeps (kept : List Deed → Machine → Prop)
    (move : ∀ trace m d m', kept trace m → Move m d m' → kept (trace ++ d) m') (trace : List Deed)
    (h : kept trace m) (hm : Moves m ds m') : kept (trace ++ ds) m' := by
  induction hm generalizing trace with
  | refl => rwa [List.append_nil]
  | step first _ ih =>
    rw [← List.append_assoc]
    exact ih _ (move _ _ _ _ h first)

end Moves

end Machine

/-- What happens when the session takes a step. -/
def Session.deeds (s : Session) : List Deed := if s.isComplete then [] else s.machine.deeds

end OutOfOrder
