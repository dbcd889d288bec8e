import OutOfOrder.Config
import OutOfOrder.Yaml.Document

/-!
Configurations written as YAML. A mapping assigns fields by name: one it does not name keeps its default,
a name that is no field is passed over and a field may be named once only. A sequence assigns them in
their order.
-/

set_option autoImplicit false

namespace OutOfOrder

open Yaml

namespace Yaml.Node

def value? : Node → Option Value
  | scalar content type => content.value? type
  | _ => none

/-- A whole number from zero to below `size`. -/
def natural? (size : Nat) (node : Node) : Option Nat :=
  match node.value? with
  | some (.integer n) => if 0 ≤ n ∧ n < size then some n.toNat else none
  | _ => none

def word? (node : Node) : Option Word :=
  match node.value? with
  | some (.integer n) => some (Float.ofInt n)
  | some (.float x) => some x
  | _ => none

def flag? (node : Node) : Option Bool :=
  match node.value? with
  | some (.bool b) => some b
  | _ => none

/-- The text of a key, whatever it stands for. -/
def key? : Node → Option (List Char)
  | scalar content _ => some content.text
  | _ => none

end Yaml.Node

namespace Config

/-- `assign` meets no alias; those inside its node are resolved in the document. -/
structure Field (α : Type) where
  name : String
  assign : Document → α → Node → Option α

namespace Field

variable {α : Type}

def assignNamed (d : Document) (fields : List (Field α)) (seen : List String) (start : α) :
    List (Node × Node) → Option α
  | [] => some start
  | (key, node) :: entries => do
    let name ← (d.resolve key).key?
    match fields.find? fun f => f.name.toList == name with
    | none => assignNamed d fields seen start entries
    | some f =>
      if seen.contains f.name then none
      else do
        let next ← f.assign d start (d.resolve node)
        assignNamed d fields (f.name :: seen) next entries

def assignInOrder (d : Document) (start : α) : List (Field α) → List Node → Option α
  | _, [] => some start
  | [], _ :: _ => none
  | f :: fields, node :: nodes => do
    let next ← f.assign d start (d.resolve node)
    assignInOrder d next fields nodes

def read (fields : List (Field α)) (d : Document) (start : α) : Node → Option α
  | .mapping entries => assignNamed d fields [] start entries
  | .sequence items => assignInOrder d start fields items
  | _ => none

end Field

def flagField (name : String) (set : Trace → Bool → Trace) : Field Trace :=
  ⟨name, fun _ t node => node.flag?.map (set t)⟩

def traceFields : List (Field Trace) := [
  flagField "issue" fun t b => { t with issue := b },
  flagField "execute" fun t b => { t with execute := b },
  flagField "write_result" fun t b => { t with writeResult := b },
  flagField "commit" fun t b => { t with commit := b },
  flagField "stall" fun t b => { t with stall := b },
  flagField "squash" fun t b => { t with squash := b },
  flagField "cycle" fun t b => { t with cycle := b }]

def numberField (name : String) (size : Nat) (set : Config → Nat → Config) : Field Config :=
  ⟨name, fun _ c node => (node.natural? size).map (set c)⟩

/-- Of two values for one name the last one counts. -/
def readRegisters (d : Document) : Node → Option (Std.TreeMap String Word)
  | .mapping entries =>
    entries.foldlM (fun table (key, node) => do
      let name ← (d.resolve key).key?
      return table.insert (String.ofList name) (← (d.resolve node).word?)) ∅
  | _ => none

def fields : List (Field Config) := [
  numberField "rob_capacity" UInt16.size fun c n => { c with robCapacity := UInt16.ofNat n },
  numberField "add_rs_count" UInt16.size fun c n => { c with addStations := UInt16.ofNat n },
  numberField "mul_rs_count" UInt16.size fun c n => { c with mulStations := UInt16.ofNat n },
  numberField "load_store_rs_count" UInt16.size fun c n => { c with loadStoreStations := UInt16.ofNat n },
  numberField "branch_rs_count" UInt16.size fun c n => { c with branchStations := UInt16.ofNat n },
  numberField "arch_reg_count" UInt16.size fun c n => { c with highestArch := UInt16.ofNat n },
  numberField "phys_reg_count" UInt16.size fun c n => { c with highestPhys := UInt16.ofNat n },
  numberField "max_cycles" UInt64.size fun c n => { c with maxCycles := UInt64.ofNat n },
  numberField "memory_size" UInt32.size fun c n => { c with memorySize := UInt32.ofNat n },
  numberField "memory_stride" UInt32.size fun c n => { c with memoryStride := UInt32.ofNat n },
  ⟨"initial_registers", fun d c node =>
    (readRegisters d node).map fun table => { c with initialRegisters := table }⟩,
  ⟨"trace", fun d c node =>
    (Field.read traceFields d .all node).map fun t => { c with trace := t }⟩]

def read (source : List Char) : Option Config := do
  let d ← Yaml.read source
  Field.read fields d .standard (d.resolve d.root)

end Config

end OutOfOrder
