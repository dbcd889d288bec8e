import OutOfOrder.Text.Uppercase

/-!
The operations: the functional unit that serves each, its latency, its result.
-/

set_option autoImplicit false

namespace OutOfOrder

abbrev Word := Float

/-- The classes of functional units; each has its own pool of reservation stations. -/
inductive FunctionalUnit
  | addSub
  | mulDiv
  | loadStore
  | branch
  deriving DecidableEq, Repr

namespace FunctionalUnit

/-- The order in which the pools are laid out. -/
def all : List FunctionalUnit := [.addSub, .mulDiv, .loadStore, .branch]

def text : FunctionalUnit → String
  | .addSub => "add/sub"
  | .mulDiv => "mul/div"
  | .loadStore => "load/store"
  | .branch => "branch"

/-- What the names of the stations in this pool begin with. -/
def stationLabel : FunctionalUnit → String
  | .addSub => "Add"
  | .mulDiv => "Mult"
  | .loadStore => "Load"
  | .branch => "Branch"

end FunctionalUnit

inductive Opcode
  | add
  | sub
  | mul
  | div
  | addi
  | subi
  | muli
  | divi
  | load
  | store
  | beq
  deriving DecidableEq, Repr

/-- A division whose divisor is a zero of either sign. -/
inductive DivisionByZero
  | divisionByZero
  deriving DecidableEq, Repr

def DivisionByZero.message : DivisionByZero → String
  | .divisionByZero => "division by zero"

namespace Opcode

def all : List Opcode := [.add, .sub, .mul, .div, .addi, .subi, .muli, .divi, .load, .store, .beq]

def mnemonic : Opcode → String
  | add => "ADD"
  | sub => "SUB"
  | mul => "MUL"
  | div => "DIV"
  | addi => "ADDI"
  | subi => "SUBI"
  | muli => "MULI"
  | divi => "DIVI"
  | load => "LOAD"
  | store => "STORE"
  | beq => "BEQ"

/-- Mnemonics are read in any case. -/
def read (name : List Char) : Option Opcode :=
  all.find? fun op => op.mnemonic.toList = Text.uppercase name

def unit : Opcode → FunctionalUnit
  | add | sub | addi | subi => .addSub
  | mul | div | muli | divi => .mulDiv
  | load | store => .loadStore
  | beq => .branch

def usesImmediate : Opcode → Bool
  | addi | subi | muli | divi | load | store => true
  | _ => false

def isBranch : Opcode → Bool
  | beq => true
  | _ => false

def isMemory : Opcode → Bool
  | load | store => true
  | _ => false

/-- How many cycles an operation executes once its operands are there. -/
def latency : Opcode → Nat
  | add | sub | addi | subi => 1
  | beq => 2
  | mul | div | muli | divi => 3
  | load | store => 5

/-- The result for the two operands and the immediate; a memory operation gives its address and a branch
gives one when it is taken. -/
def apply (op : Opcode) (left right : Word) (imm : Int64) : Except DivisionByZero Word :=
  let immediate := Float.ofInt imm.toInt
  match op with
  | add => .ok (left + right)
  | sub => .ok (left - right)
  | mul => .ok (left * right)
  | div => if right == 0.0 then .error .divisionByZero else .ok (left / right)
  | addi => .ok (left + immediate)
  | subi => .ok (left - immediate)
  | muli => .ok (left * immediate)
  | divi => if imm = 0 then .error .divisionByZero else .ok (left / immediate)
  | load | store => .ok (left + immediate)
  | beq => .ok (if left == right then 1.0 else 0.0)

end Opcode

end OutOfOrder
