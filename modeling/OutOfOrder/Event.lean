import OutOfOrder.Decimal.Positional
import OutOfOrder.Instance

/-!
What happens in a cycle, what makes a run fail, and the log lines that tell of both.
-/

set_option autoImplicit false

namespace OutOfOrder

/-- Why issue waits. -/
inductive Shortage
  | slot (instr : Instruction) (head : Nat)
  | station (instr : Instruction)
  | register (instr : Instruction)
  deriving DecidableEq, Repr

def Shortage.text : Shortage → String
  | slot instr head => s!"ROB full, {instr.render} waits for ROB{head} to commit"
  | station instr => s!"no free {instr.opcode.unit.text} station for {instr.render}"
  | register instr => s!"no free physical register for {instr.render}"

/-- Stations appear by name, slots by number, instructions as they print. -/
inductive Happening
  | cycle
  | issued (instr : Instruction) (slot : Nat) (station : String) (tag : Tag)
  | started (station : String) (instr : Option Instruction)
  | completed (station : String) (instr : Option Instruction)
  | written (station : String) (slot : Nat) (result : Word) (instr : Option Instruction)
      (woken : Nat)
  | stalled (shortage : Shortage)
  | squashed (instr : Option Instruction) (id : InstanceId) (slot : Option Nat)
  | discarded (instr : Option Instruction) (slot : Nat)
  | committed (instr : Option Instruction)
  | published (instr : Option Instruction) (dest : Register) (value : Word)
  | finished
  deriving DecidableEq, Repr

structure Event where
  cycle : Nat
  what : Happening
  deriving DecidableEq, Repr

namespace Event

def shown (instr : Option Instruction) : String := (instr.map Instruction.render).getD ""

def number (value : Word) : String := String.ofList (Decimal.write value)

def message (cycle : Nat) : Happening → String
  | .cycle => s!"Cycle {cycle}"
  | .issued instr slot station tag =>
    let name := String.ofList tag.text
    let renamed := match instr.dest with
      | some dest => s!", {String.ofList dest.text} -> {name}"
      | none => ""
    s!"Issue: {instr.render} -> ROB{slot} at {station} (tag {name}{renamed})"
  | .started station instr => s!"Execute: {station} started {shown instr}"
  | .completed station instr => s!"Execute: {station} completed {shown instr}"
  | .written station slot result instr woken =>
    s!"Write Result: {station} -> ROB{slot} = {number result} ({shown instr}; {woken} stations woken)"
  | .stalled shortage => s!"Stall: {shortage.text}"
  | .squashed instr id slot =>
    let place := match slot with
      | some slot => s!" in ROB{slot}"
      | none => ""
    s!"Squash: {shown instr} at position {id.position}{place} (version {id.version} -> {id.version + 1})"
  | .discarded instr slot => s!"Discard: {shown instr} from ROB{slot}"
  | .committed instr => s!"Commit: {shown instr}"
  | .published instr dest value =>
    s!"Commit: {shown instr} -> {String.ofList dest.text} = {number value}"
  | .finished => s!"Simulation complete in {cycle} cycles"

def text (e : Event) : String := s!"[{e.cycle}] {message e.cycle e.what}"

end Event

/-- A division by zero that reached its functional unit. -/
structure Fault where
  position : Nat
  instr : Option Instruction
  cycle : Nat
  deriving DecidableEq, Repr

def Fault.text (f : Fault) : String :=
  s!"Arithmetic fault in cycle {f.cycle}: division by zero in '{Event.shown f.instr}' (position {f.position})"

end OutOfOrder
