import OutOfOrder.Machine.Commit
import OutOfOrder.Machine.Execute
import OutOfOrder.Machine.Issue
import OutOfOrder.Machine.WriteResult

/-!
One cycle: write result, execute, issue, commit. What a phase frees, a later phase of the same cycle may
use.
-/

set_option autoImplicit false

namespace OutOfOrder.Machine

/-- Starts the next cycle. -/
def tick (m : Machine) : Machine :=
  { m with counters := { m.counters with cycles := m.counters.cycles + 1 } }.record .cycle

def runCycle (m : Machine) : Except Halt Machine := do
  let m ← m.tick.writeResults
  let m ← m.execute
  let m ← m.issue
  let m ← m.commit
  return m.settle

/-- Hands over what has happened. -/
def takeEvents (m : Machine) : Array Event × Machine := (m.events, { m with events := #[] })

end OutOfOrder.Machine
