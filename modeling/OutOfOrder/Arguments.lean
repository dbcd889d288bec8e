import OutOfOrder.CommandLine

/-!
The arguments of the command line.
-/

set_option autoImplicit false

namespace OutOfOrder

/-- An invocation and the path of the configuration. -/
structure Arguments where
  invocation : Invocation
  config : String

namespace Arguments

def usage : String :=
  "usage: --file <program> [--config <file>] [--cycles <n>] [--back <n>] [--verbose]"

/-- The part before an equals sign and the part behind it. -/
def splitOption (argument : List Char) : List Char × Option (List Char) :=
  match argument.dropWhile (· != '=') with
  | [] => (argument, none)
  | _ :: value => (argument.takeWhile (· != '='), some value)

/-- Long options may carry their value behind an equals sign. -/
def words : List String → List String
  | [] => []
  | argument :: rest =>
    match argument.toList with
    | '-' :: '-' :: _ =>
      match splitOption argument.toList with
      | (name, some value) => String.ofList name :: String.ofList value :: words rest
      | (_, none) => argument :: words rest
    | _ => argument :: words rest

def count (value : String) : Option Nat := (Numeral.readUnsigned (UInt64.size - 1) value.toList).toOption

def readOnto (a : Arguments) : List String → Option Arguments
  | [] => some a
  | "--file" :: path :: rest | "-f" :: path :: rest =>
    readOnto { a with invocation := { a.invocation with program := path } } rest
  | "--config" :: path :: rest | "-c" :: path :: rest => readOnto { a with config := path } rest
  | "--cycles" :: n :: rest => do
    readOnto { a with invocation := { a.invocation with cycles := some (← count n) } } rest
  | "--back" :: n :: rest => do
    readOnto { a with invocation := { a.invocation with back := ← count n } } rest
  | "--verbose" :: rest | "-v" :: rest =>
    readOnto { a with invocation := { a.invocation with verbose := true } } rest
  | _ :: _ => none

/-- The program is the one argument that has no default. -/
def read (arguments : List String) : Option Arguments := do
  let a ← readOnto ⟨⟨"", none, 0, false⟩, "cpu.yaml"⟩ (words arguments)
  if a.invocation.program.isEmpty then none else some a

end Arguments

end OutOfOrder
