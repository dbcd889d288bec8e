import OutOfOrder.Breach
import OutOfOrder.Decimal.Positional
import OutOfOrder.Opcode
import OutOfOrder.Register
import OutOfOrder.Text.Column

/-!
Reservation stations, which hold an operation until its operands are there and then count down its
latency, and the table of all four pools.
-/

set_option autoImplicit false

namespace OutOfOrder

/-- A value, or the tag of the producer that will broadcast it. -/
inductive Operand
  | resolved (value : Word)
  | pending (tag : Tag)
  deriving DecidableEq, Repr

namespace Operand

def value? : Operand → Option Word
  | resolved value => some value
  | pending _ => none

def isResolved (o : Operand) : Bool := o.value?.isSome

def awaits (tag : Tag) (o : Operand) : Bool := o == .pending tag

/-- Takes the value off the bus if the operand waits for it. -/
def snoop (tag : Tag) (value : Word) (o : Operand) : Operand :=
  if o.awaits tag then .resolved value else o

def text : Operand → List Char
  | resolved value => Decimal.write value
  | pending tag => '<' :: tag.text ++ ['>']

end Operand

/-- Station `number` of its pool. Only a busy station holds an operation. -/
structure Station where
  unit : FunctionalUnit
  number : Nat
  busy : Bool
  opcode : Option Opcode
  left : Option Operand
  right : Option Operand
  imm : Int64
  dest : Option Tag
  remaining : Nat
  deriving DecidableEq, Repr

namespace Station

def idle (unit : FunctionalUnit) (number : Nat) : Station :=
  { unit, number, busy := false, opcode := none, left := none, right := none, imm := 0
    dest := none, remaining := 0 }

def name (s : Station) : String := s!"{s.unit.stationLabel}{s.number}"

def release (s : Station) : Station := idle s.unit s.number

/-- Every operand is resolved; an absent right one needs nothing. -/
def isReady (s : Station) : Bool :=
  s.busy && s.left.any Operand.isResolved && s.right.all Operand.isResolved

/-- Done executing, the result not yet written. -/
def isFinished (s : Station) : Bool := s.busy && s.remaining == 0

def awaits (tag : Tag) (s : Station) : Bool :=
  s.left.any (Operand.awaits tag) || s.right.any (Operand.awaits tag)

def snoop (tag : Tag) (value : Word) (s : Station) : Station :=
  { s with left := s.left.map (Operand.snoop tag value)
           right := s.right.map (Operand.snoop tag value) }

/-- An operand that is absent or not resolved counts as zero. -/
def operandValue (o : Option Operand) : Word := (o.bind Operand.value?).getD 0.0

def result (s : Station) : Except DivisionByZero Word :=
  match s.opcode with
  | none => .ok 0.0
  | some op => op.apply (operandValue s.left) (operandValue s.right) s.imm

def render (s : Station) : String :=
  let held := if s.busy then s.opcode else none
  match held with
  | none => s!"{Text.padRight 8 s.name} idle"
  | some op =>
    let operands := (s.left.toList ++ s.right.toList).map fun o => " " ++ String.ofList o.text
    let immediate := if op.usesImmediate then s!" #{s.imm.toInt}" else ""
    let dest := match s.dest with
      | some tag => s!" -> {String.ofList tag.text}"
      | none => ""
    s!"{Text.padRight 8 s.name} {Text.padRight 5 op.mnemonic}{String.join operands}{immediate}{dest}" ++
      s!" ({s.remaining} cycles left)"

end Station

structure StationTable where
  stations : Array Station
  deriving DecidableEq

namespace StationTable

/-- Pool after pool. -/
def ofCounts (counts : FunctionalUnit → Nat) : StationTable :=
  ⟨(FunctionalUnit.all.flatMap fun unit =>
    (List.range (counts unit)).map fun i => Station.idle unit (i + 1)).toArray⟩

def size (t : StationTable) : Nat := t.stations.size

def station (t : StationTable) (i : Nat) : Except Breach Station := readAt t.stations i

def modify (t : StationTable) (i : Nat) (f : Station → Station) : StationTable :=
  ⟨t.stations.modify i f⟩

@[simp] theorem size_modify (t : StationTable) (i : Nat) (f : Station → Station) :
    (t.modify i f).size = t.size := by simp [size, modify]

theorem getElem?_stations_modify (t : StationTable) (i j : Nat) (f : Station → Station) :
    (t.modify i f).stations[j]? =
      if i = j then t.stations[j]?.map f else t.stations[j]? := by
  simp [modify, Array.getElem?_modify]

def release (t : StationTable) (i : Nat) : StationTable := t.modify i Station.release

def pool (t : StationTable) (unit : FunctionalUnit) : List Station :=
  t.stations.toList.filter (·.unit == unit)

/-- The stations that are done executing, in table order. -/
def finished (t : StationTable) : List Nat :=
  (List.range t.size).filter fun i => t.stations[i]?.any Station.isFinished

def idleIn (t : StationTable) (unit : FunctionalUnit) : Option Nat :=
  t.stations.findIdx? fun s => s.unit == unit && !s.busy

def stationFor (t : StationTable) (tag : Tag) : Option Nat :=
  t.stations.findIdx? fun s => s.busy && s.dest == some tag

def waiters (t : StationTable) (tag : Tag) : Nat :=
  t.stations.countP fun s => s.busy && s.awaits tag

/-- Delivers a result to every busy station that waits for the tag. -/
def broadcast (t : StationTable) (tag : Tag) (value : Word) : StationTable :=
  ⟨t.stations.map fun s => if s.busy then s.snoop tag value else s⟩

@[simp] theorem size_broadcast (t : StationTable) (tag : Tag) (value : Word) :
    (t.broadcast tag value).size = t.size := by simp [size, broadcast]

end StationTable

end OutOfOrder
