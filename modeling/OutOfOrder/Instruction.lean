import OutOfOrder.Opcode
import OutOfOrder.Register

/-!
Decoded instructions: what they print as and which operand shapes the scheduler accepts.
-/

set_option autoImplicit false

namespace OutOfOrder

/-- A store keeps the value's register in `rs` and the base address in `rt`. The offset of a branch is
its immediate; fetch never follows it. An instruction without a text of its own has the empty one. -/
structure Instruction where
  opcode : Opcode
  rd : Option Register
  rs : Register
  rt : Option Register
  imm : Int64
  text : List Char
  deriving DecidableEq, Repr

namespace Instruction

def renames (i : Instruction) : Bool :=
  i.rd.isSome && !i.opcode.isBranch && i.opcode != .store

/-- The register that a result is renamed for. -/
def dest (i : Instruction) : Option Register := if i.renames then i.rd else none

def registers (i : Instruction) : List Register := i.rd.toList ++ i.rs :: i.rt.toList

/-- The registers read on the left and on the right. A store has its base address on the left and the
value to store on the right; an immediate takes the place of a right operand. -/
def sources (i : Instruction) : Register × Option Register :=
  if i.opcode = .store then (i.rt.getD i.rs, some i.rs)
  else if i.opcode.usesImmediate then (i.rs, none)
  else (i.rs, i.rt)

/-- The operands in the order of the assembly form; an absent register leaves its place empty. -/
def operands (i : Instruction) : List Char :=
  let rd := (i.rd.map Register.text).getD []
  let rs := i.rs.text
  let rt := (i.rt.map Register.text).getD []
  let imm := Numeral.writeInt i.imm.toInt
  match i.opcode with
  | .add | .sub | .mul | .div => rd ++ ',' :: rs ++ ',' :: rt
  | .addi | .subi | .muli | .divi => rd ++ ',' :: rs ++ ',' :: imm
  | .load => rd ++ ',' :: imm ++ '(' :: rs ++ [')']
  | .store => rs ++ ',' :: imm ++ '(' :: rt ++ [')']
  | .beq => rs ++ ',' :: rt ++ ',' :: imm

/-- The assembly form that the operands make, whatever text the instruction carries. -/
def assembly (i : Instruction) : List Char := i.opcode.mnemonic.toList ++ ' ' :: i.operands

/-- The carried text, or else the assembly form. -/
def printed (i : Instruction) : List Char := if i.text.isEmpty then i.assembly else i.text

def render (i : Instruction) : String := String.ofList i.printed

/-- Why the scheduler does not accept an instruction. -/
inductive Misfit
  | destinationAndSources
  | destination
  | sources
  | register (r : Register) (highest : UInt16)
  deriving DecidableEq, Repr

def Misfit.message (i : Instruction) : Misfit → String
  | destinationAndSources => s!"{i.render} expects a destination and two source registers"
  | destination => s!"{i.render} expects a destination register"
  | sources => s!"{i.render} expects two source registers"
  | register r highest =>
    s!"{i.render} uses register {String.ofList r.text} but the highest register is R{highest}"

/-- The operand that the operation needs and the instruction does not have. -/
def missingOperand (i : Instruction) : Option Misfit :=
  match i.opcode with
  | .add | .sub | .mul | .div =>
    if i.rd.isNone || i.rt.isNone then some .destinationAndSources else none
  | .addi | .subi | .muli | .divi | .load => if i.rd.isNone then some .destination else none
  | .store | .beq => if i.rt.isNone then some .sources else none

/-- A missing operand is reported before a register beyond the highest one. -/
def misfit (highest : UInt16) (i : Instruction) : Option Misfit :=
  i.missingOperand <|>
    (i.registers.find? fun r => decide (highest < r.index)).map (.register · highest)

end Instruction

end OutOfOrder
