import OutOfOrder.Assembly.Program
import OutOfOrder.Config.Reader
import OutOfOrder.Report

/-!
One invocation of the simulator, as a function from the contents of its files to the lines it prints and
its exit code.
-/

set_option autoImplicit false

namespace OutOfOrder

/-- Runs to completion unless a number of cycles is given, then rolls back. -/
structure Invocation where
  program : String
  cycles : Option Nat
  back : Nat
  verbose : Bool

structure Outcome where
  exitCode : Nat
  lines : List String
  deriving DecidableEq, Repr

namespace Invocation

/-- A configuration that cannot be read is replaced by the default one. -/
def configuration (file : Option ByteArray) : Config :=
  ((file.bind String.fromUTF8?).bind fun text => Config.read text.toList).getD .standard

def source (file : Except Assembly.SourceError ByteArray) : Except Assembly.SourceError (List Char) :=
  match file with
  | .error cause => .error cause
  | .ok bytes =>
    match String.fromUTF8? bytes with
    | some text => .ok text.toList
    | none => .error .notText

def loadProgram (inv : Invocation) (config : Config) (file : Except Assembly.SourceError ByteArray) :
    Except Assembly.LoadError (List Instruction) :=
  match source file with
  | .ok text => Assembly.load config text
  | .error cause => .error (.unreadable inv.program cause)

/-- Findings of the analysis are printed one a line. -/
def complaint : Assembly.LoadError → List String
  | .analysis found => found.map Assembly.LoadError.finding
  | other => [other.message]

/-- Drives a loaded session as asked. -/
def drive (inv : Invocation) (s : Session) : Except Breach (Session × Except Failure Unit) := do
  let (s, result) ← match inv.cycles with
    | some n => s.stepMany n
    | none => do
      let (s, result) ← s.run
      pure (s, result.map fun _ => ())
  return ((s.rollbackMany inv.back).2, result)

def logLines (inv : Invocation) (s : Session) : List String :=
  if inv.verbose then s.log.toList.map LogEntry.text ++ [""] else []

/-- What is printed after the program was read. -/
def simulate (inv : Invocation) (config : Config) (code : List Instruction) : Except Breach Outcome := do
  let (s, loaded) ← (← Session.new config).load code
  match loaded with
  | .error e => return ⟨1, [e.message]⟩
  | .ok () =>
    let (s, result) ← inv.drive s
    let lines := inv.logLines s ++ (← Report.state s)
    match result with
    | .ok () => return ⟨0, lines⟩
    | .error e => return ⟨1, lines ++ [e.message]⟩

def run (inv : Invocation) (config : Option ByteArray)
    (program : Except Assembly.SourceError ByteArray) : Outcome :=
  let config := configuration config
  let opening := s!"Loading {inv.program}"
  match inv.loadProgram config program with
  | .error e => ⟨1, opening :: s!"Loading program '{inv.program}' failed." :: complaint e⟩
  | .ok code =>
    match inv.simulate config code with
    | .error _ => ⟨101, [opening]⟩
    | .ok outcome => { outcome with lines := opening :: outcome.lines }

end Invocation

end OutOfOrder
