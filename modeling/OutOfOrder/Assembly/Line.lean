import OutOfOrder.Assembly.Normal
import OutOfOrder.Instruction
import OutOfOrder.Text.Digit

/-!
One line of assembly as an instruction. The operands have to fit the form of the operation before their
numbers are read; the form takes the digits of every script and the numbers only ASCII ones.
-/

set_option autoImplicit false

namespace OutOfOrder.Assembly

open Text

/-- What is wrong with a line; fields and mnemonics are those of the normal form. -/
inductive LineError
  | unknownOperation (mnemonic : List Char)
  | malformedOperands (mnemonic : List Char)
  | illegalRegister (field : List Char)
  | illegalImmediate (field : List Char) (cause : Numeral.Refusal)
  deriving DecidableEq, Repr

def LineError.message : LineError → String
  | unknownOperation mnemonic => s!"unknown operation '{String.ofList mnemonic}'"
  | malformedOperands mnemonic => s!"malformed operands for {String.ofList mnemonic}"
  | illegalRegister field => s!"illegal register '{String.ofList field}'"
  | illegalImmediate field cause => s!"illegal immediate '{String.ofList field}': {cause.message}"

/-- A piece of an operand form: a field, or a character that stands for itself. -/
inductive Piece
  | register
  | immediate
  | mark (c : Char)
  deriving DecidableEq, Repr

def form : Opcode → List Piece
  | .add | .sub | .mul | .div => [.register, .mark ',', .register, .mark ',', .register]
  | .addi | .subi | .muli | .divi => [.register, .mark ',', .register, .mark ',', .immediate]
  | .load | .store => [.register, .mark ',', .immediate, .mark '(', .register, .mark ')']
  | .beq => [.register, .mark ',', .register, .mark ',', .immediate]

/-- At least one digit, and the rest. -/
def takeDigits (cs : List Char) : Option (List Char × List Char) :=
  match cs.takeWhile isDecimalDigit with
  | [] => none
  | ds => some (ds, cs.dropWhile isDecimalDigit)

def takeRegister : List Char → Option (List Char × List Char)
  | 'R' :: cs => (takeDigits cs).map fun (ds, rest) => ('R' :: ds, rest)
  | _ => none

def takeImmediate : List Char → Option (List Char × List Char)
  | '+' :: cs => (takeDigits cs).map fun (ds, rest) => ('+' :: ds, rest)
  | '-' :: cs => (takeDigits cs).map fun (ds, rest) => ('-' :: ds, rest)
  | cs => takeDigits cs

/-- The fields of a text that has exactly the given form. -/
def matchForm : List Piece → List Char → Option (List (List Char))
  | [], [] => some []
  | [], _ :: _ => none
  | .mark c :: pieces, cs =>
    match cs with
    | d :: rest => if c = d then matchForm pieces rest else none
    | [] => none
  | .register :: pieces, cs => do
    let (field, rest) ← takeRegister cs
    return field :: (← matchForm pieces rest)
  | .immediate :: pieces, cs => do
    let (field, rest) ← takeImmediate cs
    return field :: (← matchForm pieces rest)

def readRegister (field : List Char) : Except LineError Register :=
  match Register.read field with
  | some r => .ok r
  | none => .error (.illegalRegister field)

def readImmediate (field : List Char) : Except LineError Int64 :=
  match Numeral.readSigned 0x7FFFFFFFFFFFFFFF field with
  | .ok n => .ok (Int64.ofInt n)
  | .error cause => .error (.illegalImmediate field cause)

/-- Reads the three fields of a form, registers before the immediate, and gives the instruction its normal
form as text. -/
def decode (op : Opcode) (first second third text : List Char) : Except LineError Instruction :=
  match op with
  | .add | .sub | .mul | .div => do
    let rd ← readRegister first
    let rs ← readRegister second
    let rt ← readRegister third
    return ⟨op, some rd, rs, some rt, 0, text⟩
  | .addi | .subi | .muli | .divi => do
    let rd ← readRegister first
    let rs ← readRegister second
    let imm ← readImmediate third
    return ⟨op, some rd, rs, none, imm, text⟩
  | .load => do
    let rd ← readRegister first
    let rs ← readRegister third
    let imm ← readImmediate second
    return ⟨op, some rd, rs, none, imm, text⟩
  | .store => do
    let rs ← readRegister first
    let rt ← readRegister third
    let imm ← readImmediate second
    return ⟨op, none, rs, some rt, imm, text⟩
  | .beq => do
    let rs ← readRegister first
    let rt ← readRegister second
    let imm ← readImmediate third
    return ⟨op, none, rs, some rt, imm, text⟩

/-- Reads a line in normal form. -/
def readNormal (text : List Char) : Except LineError Instruction :=
  let mnemonic := text.takeWhile (· != ' ')
  match Opcode.read mnemonic with
  | none => .error (.unknownOperation mnemonic)
  | some op =>
    match text.dropWhile (· != ' ') with
    | _ :: operands =>
      match matchForm (form op) operands with
      | some [first, second, third] => decode op first second third text
      | _ => .error (.malformedOperands mnemonic)
    | [] => .error (.malformedOperands mnemonic)

def readLine (line : List Char) : Except LineError Instruction := readNormal (normalForm line)

end OutOfOrder.Assembly
