import OutOfOrder.Instruction

/-!
Versions of an instruction at a program position, and how far each has come.
-/

set_option autoImplicit false

namespace OutOfOrder

inductive Stage
  | squashed
  | unissued
  | issued
  | executed
  | written
  | committed
  deriving DecidableEq, Repr

namespace Stage

def all : List Stage := [.squashed, .unissued, .issued, .executed, .written, .committed]

def code : Stage → Int
  | squashed => -1
  | unissued => 0
  | issued => 1
  | executed => 2
  | written => 3
  | committed => 4

def name : Stage → String
  | squashed => "squashed"
  | unissued => "unissued"
  | issued => "issued"
  | executed => "executed"
  | written => "written"
  | committed => "committed"

def text (s : Stage) : String := s!"{s.name}({s.code})"

/-- A version that has left the machine for good. -/
def isFinal : Stage → Bool
  | committed | squashed => true
  | _ => false

end Stage

/-- The cycle of each phase; `executeDone` is the one in which the countdown reached zero. -/
structure Times where
  issue : Option Nat
  execute : Option Nat
  executeDone : Option Nat
  write : Option Nat
  commit : Option Nat
  deriving DecidableEq, Repr

def Times.none : Times := ⟨.none, .none, .none, .none, .none⟩

/-- Names one version of the instruction at a position. -/
structure InstanceId where
  position : Nat
  version : Nat
  deriving DecidableEq, Repr

def InstanceId.text (id : InstanceId) : String := s!"#{id.position}.v{id.version}"

structure Instance where
  instr : Instruction
  position : Nat
  version : Nat
  stage : Stage
  times : Times
  deriving DecidableEq, Repr

namespace Instance

def fresh (instr : Instruction) (position version : Nat) : Instance :=
  { instr, position, version, stage := .unissued, times := .none }

def id (i : Instance) : InstanceId := ⟨i.position, i.version⟩

end Instance

end OutOfOrder
