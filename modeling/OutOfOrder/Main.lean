import OutOfOrder.Arguments

/-!
The command line: reads the files, prints the lines and exits with the code of one invocation.
-/

set_option autoImplicit false

namespace OutOfOrder

def readConfiguration (path : String) : IO (Option ByteArray) := do
  try
    return some (← IO.FS.readBinFile path)
  catch _ =>
    return none

def readProgram (path : String) : IO (Except Assembly.SourceError ByteArray) := do
  try
    return .ok (← IO.FS.readBinFile path)
  catch
    | .noFileOrDirectory .. => return .error .missing
    | e => return .error (.other (toString e))

end OutOfOrder

open OutOfOrder in
def main (arguments : List String) : IO UInt32 := do
  match Arguments.read arguments with
  | none =>
    IO.eprintln Arguments.usage
    return 1
  | some a =>
    let config ← readConfiguration a.config
    let program ← readProgram a.invocation.program
    let outcome := a.invocation.run config program
    for line in outcome.lines do
      IO.println line
    return UInt32.ofNat outcome.exitCode
