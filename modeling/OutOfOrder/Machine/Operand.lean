import OutOfOrder.Machine.Basic

/-!
Where an operand comes from: the youngest writer of its register in flight, or else the committed value.
-/

set_option autoImplicit false

namespace OutOfOrder

/-- Of two cycles the later one counts; an absent one is earliest. -/
def notLater : Option Nat → Option Nat → Bool
  | none, _ => true
  | some _, none => false
  | some a, some b => a ≤ b

namespace ReorderBuffer

/-- The slots in flight that write a register and were not cancelled, oldest first. -/
def writers (b : ReorderBuffer) (r : Register) : List Nat :=
  b.inFlight.filter fun i => b.slots[i]?.any fun s => s.isLive && s.arch == some r

def issueCycle (b : ReorderBuffer) (i : Nat) : Option Nat := b.slots[i]?.bind (·.times.issue)

/-- The writer that was issued last. -/
def youngestWriter (b : ReorderBuffer) (r : Register) : Option Nat :=
  (b.writers r).foldl (fun best i =>
    match best with
    | none => some i
    | some j => if notLater (b.issueCycle j) (b.issueCycle i) then some i else some j) none

end ReorderBuffer

namespace Machine

/-- Takes the result of the youngest writer, its tag if there is none yet, or the committed value. -/
def operandFor (m : Machine) (r : Register) : Except Breach Operand :=
  match (m.rob.youngestWriter r).bind (m.rob.slots[·]?) with
  | none => (m.registers.get r).map .resolved
  | some slot =>
    match slot.ready, slot.result, slot.tag with
    | true, some result, _ => .ok (.resolved result)
    | _, _, some tag => .ok (.pending tag)
    | _, _, none => (m.registers.get r).map .resolved

def operandFor? (m : Machine) : Option Register → Except Breach (Option Operand)
  | none => .ok none
  | some r => (m.operandFor r).map some

/-- The operands on the left and on the right. -/
def operands (m : Machine) (instr : Instruction) : Except Breach (Operand × Option Operand) := do
  let (left, right) := instr.sources
  return (← m.operandFor left, ← m.operandFor? right)

end Machine

end OutOfOrder
