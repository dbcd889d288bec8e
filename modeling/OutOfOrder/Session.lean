import OutOfOrder.Machine.Cycle

/-!
A machine as its caller drives it: load, reset, step, run to completion, roll back. Every cycle that
completes leaves behind the machine that it started from; one that fails leaves no trace but a line in
the log.
-/

set_option autoImplicit false

namespace OutOfOrder

inductive Failure
  | arithmetic (fault : Fault)
  | runaway (cycles : Nat)
  | invalidProgram (misfits : List String)
  deriving DecidableEq, Repr

def Failure.message : Failure → String
  | .arithmetic fault => fault.text
  | .runaway cycles => s!"Simulation interrupted: no completion after {cycles} cycles"
  | .invalidProgram misfits => "Invalid program: " ++ "; ".intercalate misfits

inductive LogEntry
  | loaded (count : Nat)
  | event (event : Event)
  | fault (fault : Fault)
  | interrupted (cycles : Nat)
  deriving DecidableEq, Repr

def LogEntry.text : LogEntry → String
  | .loaded count => s!"Loaded {count} instructions"
  | .event e => e.text
  | .fault f => s!"Fault: {f.text}"
  | .interrupted cycles => s!"Simulation interrupted: too many cycles ({cycles})"

/-- A machine between cycles and the length of the log at that time. -/
structure Snapshot where
  machine : Machine
  logLength : Nat

/-- The youngest snapshot comes first. -/
structure Session where
  config : Config
  code : List Instruction
  machine : Machine
  snapshots : List Snapshot
  log : Array LogEntry

namespace Session

/-- Restarts the machine on the current program, with an empty log but for its own events. -/
def reset (s : Session) : Except Breach Session := do
  let (events, machine) := (← Machine.initial s.config s.code).takeEvents
  return { s with machine, snapshots := [], log := events.map .event }

/-- A session without a program. The machine keeps the events of its start to itself until a reset. -/
def new (config : Config) : Except Breach Session := do
  let machine ← Machine.initial config []
  return { config, code := [], machine, snapshots := [], log := #[] }

/-- The reasons against a program, instruction by instruction. -/
def misfits (config : Config) (code : List Instruction) : List String :=
  code.filterMap fun i => (i.misfit config.highestArch).map (·.message i)

/-- Takes a program that fits the configuration; any other leaves the session as it was. -/
def load (s : Session) (code : List Instruction) : Except Breach (Session × Except Failure Unit) := do
  match misfits s.config code with
  | [] =>
    let s ← { s with code }.reset
    return ({ s with log := #[.loaded code.length] ++ s.log }, .ok ())
  | reasons => return (s, .error (.invalidProgram reasons))

def isComplete (s : Session) : Bool := s.machine.isComplete

/-- One cycle, or nothing once the program is complete. A cycle that meets a fault gives no machine. What it had done by
then, its events included, was done to a value that goes with it: the session still holds the machine from before the
cycle, no snapshot has been added that would have to be taken back, and the log gets one line, that of the fault. -/
def step (s : Session) : Except Breach (Session × Except Failure Unit) :=
  if s.isComplete then .ok (s, .ok ())
  else
    match s.machine.runCycle with
    | .error (.breach b) => .error b
    | .error (.fault f) => .ok ({ s with log := s.log.push (.fault f) }, .error (.arithmetic f))
    | .ok machine =>
      let (events, drained) := machine.takeEvents
      .ok ({ s with
        machine := drained
        snapshots := ⟨s.machine, s.log.size⟩ :: s.snapshots
        log := s.log ++ events.map .event }, .ok ())

/-- Steps until the program completes or a step fails, at most `n` times. -/
def stepMany : Nat → Session → Except Breach (Session × Except Failure Unit)
  | 0, s => .ok (s, .ok ())
  | n + 1, s =>
    if s.isComplete then .ok (s, .ok ())
    else do
      match ← s.step with
      | (s, .ok ()) => stepMany n s
      | (s, .error e) => return (s, .error e)

def cyclesRun (s : Session) : Nat := s.machine.finishedAt.getD s.machine.cycle

/-- Steps until the program completes or a step fails, within the cycles that are left of the limit. -/
def runWithin : Nat → Session → Except Breach (Session × Except Failure Nat)
  | n, s =>
    if s.isComplete then .ok (s, .ok s.cyclesRun)
    else match n with
      | 0 =>
        .ok ({ s with log := s.log.push (.interrupted s.machine.cycle) },
          .error (.runaway s.machine.cycle))
      | n + 1 => do
        match ← s.step with
        | (s, .ok ()) => runWithin n s
        | (s, .error e) => return (s, .error e)

/-- Gives up when the configured number of cycles has passed. The cycles that are left are counted once, at the start;
`run_eq`, in `Session.Loop`, is the loop that compares the clock with the limit in every round. -/
def run (s : Session) : Except Breach (Session × Except Failure Nat) :=
  runWithin (s.config.maxCycles.toNat - s.machine.cycle) s

/-- Undoes the last cycle, if there is one. -/
def rollback (s : Session) : Option Session :=
  match s.snapshots with
  | [] => none
  | last :: rest =>
    some { s with machine := last.machine, snapshots := rest, log := s.log.extract 0 last.logLength }

/-- Undoes up to `n` cycles and says how many it were. -/
def rollbackMany : Nat → Session → Nat × Session
  | 0, s => (0, s)
  | n + 1, s =>
    match s.rollback with
    | none => (0, s)
    | some s =>
      let (undone, s) := rollbackMany n s
      (undone + 1, s)

end Session

end OutOfOrder
