import OutOfOrder.Assembly.Line
import OutOfOrder.Config

/-!
Program text: one instruction a line, with blank lines and comments between them. The first line that is
no instruction ends the reading; registers beyond the highest one are all reported together.
-/

set_option autoImplicit false

namespace OutOfOrder.Assembly

open Text

/-- Why the text of a program cannot be had. -/
inductive SourceError
  | missing
  | notText
  | other (message : String)
  deriving DecidableEq, Repr

def SourceError.message : SourceError → String
  | missing => "No such file or directory (os error 2)"
  | notText => "stream did not contain valid UTF-8"
  | other message => message

inductive LoadError
  | unreadable (path : String) (cause : SourceError)
  | line (number : Nat) (text : List Char) (cause : LineError)
  | analysis (misfits : List (Nat × Instruction × Instruction.Misfit))
  deriving DecidableEq, Repr

namespace LoadError

def finding (misfit : Nat × Instruction × Instruction.Misfit) : String :=
  s!"instruction {misfit.1}: {misfit.2.2.message misfit.2.1}"

def message : LoadError → String
  | unreadable path cause => s!"Failed to read '{path}': {cause.message}"
  | line number text cause =>
    s!"Parse error at line {number}: '{String.ofList text}': {cause.message}"
  | analysis misfits => "Program analysis failed: " ++ "; ".intercalate (misfits.map finding)

end LoadError

def isComment : List Char → Bool
  | '#' :: _ => true
  | '/' :: '/' :: _ => true
  | _ => false

/-- The trimmed lines that hold an instruction, with their numbers from one. -/
def instructionLines (source : List Char) : List (Nat × List Char) :=
  (((lines source).zipIdx 1).map fun (line, number) => (number, trim line)).filter
    fun (_, line) => !line.isEmpty && !isComment line

def readNumbered (numbered : Nat × List Char) : Except LoadError Instruction :=
  (readLine numbered.2).mapError (.line numbered.1 numbered.2)

/-- The instructions whose registers the configuration does not have, with their positions. -/
def misfits (config : Config) (code : List Instruction) :
    List (Nat × Instruction × Instruction.Misfit) :=
  code.zipIdx.filterMap fun (instr, position) =>
    (instr.misfit config.highestArch).map fun misfit => (position, instr, misfit)

def load (config : Config) (source : List Char) : Except LoadError (List Instruction) := do
  let code ← (instructionLines source).mapM readNumbered
  match misfits config code with
  | [] => return code
  | found => throw (.analysis found)

end OutOfOrder.Assembly
