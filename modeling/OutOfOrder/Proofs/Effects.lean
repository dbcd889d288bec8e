import OutOfOrder.Proofs.InOrder
import OutOfOrder.Proofs.Moves
import OutOfOrder.Proofs.ProgramOrder
import OutOfOrder.Proofs.Success

/-!
What each small move does to the machine, field by field.
-/

set_option autoImplicit false

namespace OutOfOrder

namespace Slot

def started (cycle : Nat) (s : Slot) : Slot :=
  { s with state := .executing, times := { s.times with execute := some cycle } }

def executed (cycle : Nat) (s : Slot) : Slot := { s with times := { s.times with executeDone := some cycle } }

def holding (cycle : Nat) (result : Word) (s : Slot) : Slot :=
  { s with result := some result, ready := true, state := .written
           times := { s.times with write := some cycle } }

def completed (cycle : Nat) (s : Slot) : Slot :=
  { s with state := .completed, times := { s.times with commit := some cycle } }

/-- A slot just claimed for an instruction. -/
def issued (v : Instance) (tag : Tag) (cycle : Nat) : Slot :=
  { busy := true, instr := some v.instr, occupant := some v.id, state := .processing
    arch := v.instr.dest, tag := some tag, result := none, ready := false
    times := { Times.none with issue := some cycle } }

theorem started_sameRole (cycle : Nat) (s : Slot) (hl : s.isLive = true) : s.SameRole (s.started cycle) :=
  ⟨by rw [hl]; rfl, rfl, rfl, rfl, rfl, rfl⟩

theorem executed_sameRole (cycle : Nat) (s : Slot) : s.SameRole (s.executed cycle) :=
  ⟨rfl, rfl, rfl, rfl, rfl, rfl⟩

theorem holding_sameRole (cycle : Nat) (result : Word) (s : Slot) (hl : s.isLive = true) :
    s.SameRole (s.holding cycle result) :=
  ⟨by rw [hl]; rfl, rfl, rfl, rfl, rfl, rfl⟩

end Slot

namespace Station

/-- A station that takes an instruction on. -/
def occupied (st : Station) (instr : Instruction) (left : Operand) (right : Option Operand) (tag : Tag) :
    Station :=
  { st with busy := true, opcode := some instr.opcode, left := some left, right
            imm := instr.imm, dest := some tag, remaining := instr.opcode.latency }

end Station

namespace Machine

open Sequenced (moved)

variable {m m' : Machine} {k : Nat} {s : Slot} {id : InstanceId}

theorem promote_of_slot {i : Nat} (hs : m.rob.slots[i]? = some s) (ho : s.occupant = some id)
    (stage : Stage) :
    m.promote i stage = { m with fetch := m.fetch.modify id (moved stage s.times) } := by
  simp [promote, hs, ho]

theorem startExecution_eq (m : Machine) (name : String) (i : Nat) (s : Slot) :
    m.startExecution name i s = if s.times.execute.isNone then
      { m with rob := m.rob.modify i (Slot.started m.cycle)
               events := m.events.push ⟨m.cycle, .started name s.instr⟩ }
    else m := by
  unfold startExecution
  split <;> rfl

theorem completeExecution_eq (hring : m.rob.Contiguous) (hk : m.rob.window[k]? = some s)
    (ho : s.occupant = some id) (name : String) (shown : Slot) :
    m.completeExecution name (m.rob.place k) shown = { m with
      rob := m.rob.modify (m.rob.place k) (Slot.executed m.cycle)
      fetch := m.fetch.modify id (moved .executed (s.executed m.cycle).times)
      counters := { m.counters with executed := m.counters.executed + 1 }
      events := m.events.push ⟨m.cycle, .completed name shown.instr⟩ } := by
  have hs : (m.rob.modify (m.rob.place k) (Slot.executed m.cycle)).slots[m.rob.place k]? =
      some (s.executed m.cycle) := by
    rw [ReorderBuffer.getElem?_slots_modify, if_pos rfl, hring.getElem?_slots hk, Option.map_some]
  let n : Machine := m.modifySlot (m.rob.place k) (Slot.executed m.cycle)
  have hp : n.promote (m.rob.place k) .executed =
      { n with fetch := n.fetch.modify id (moved .executed (s.executed m.cycle).times) } :=
    promote_of_slot (s := s.executed m.cycle) hs ho .executed
  let finish (p : Machine) : Machine :=
    { p with counters := { p.counters with executed := p.counters.executed + 1 } }.record
      (.completed name shown.instr)
  show finish (n.promote (m.rob.place k) .executed) = _
  rw [hp]
  rfl

theorem deliver_eq (hring : m.rob.Contiguous) (hk : m.rob.window[k]? = some s)
    (ho : s.occupant = some id) {i : Nat} {name : String} {tag : Tag} {result : Word}
    {instr : Option Instruction}
    (h : m.deliver i name (m.rob.place k) tag result instr = .ok m') :
    ∃ physical, m.physical.set tag result = .ok physical ∧ m' = { m with
      rob := m.rob.modify (m.rob.place k) (Slot.holding m.cycle result)
      physical
      fetch := m.fetch.modify id (moved .written (s.holding m.cycle result).times)
      stations := (m.stations.broadcast tag result).release i
      counters := { m.counters with written := m.counters.written + 1 }
      events := m.events.push
        ⟨m.cycle, .written name (m.rob.place k) result instr (m.stations.waiters tag)⟩ } := by
  have hs : (m.rob.modify (m.rob.place k) (Slot.holding m.cycle result)).slots[m.rob.place k]? =
      some (s.holding m.cycle result) := by
    rw [ReorderBuffer.getElem?_slots_modify, if_pos rfl, hring.getElem?_slots hk, Option.map_some]
  simp only [deliver, bind_eq_ok_iff, guarded_eq_ok_iff, pure_eq_ok_iff] at h
  obtain ⟨physical, hp, rfl⟩ := h
  refine ⟨physical, hp, ?_⟩
  let n : Machine := { m with rob := m.rob.modify (m.rob.place k) (Slot.holding m.cycle result), physical }
  have hpr : n.promote (m.rob.place k) .written =
      { n with fetch := n.fetch.modify id (moved .written (s.holding m.cycle result).times) } :=
    promote_of_slot (s := s.holding m.cycle result) hs ho .written
  let finish (p : Machine) : Machine :=
    { p with stations := (p.stations.broadcast tag result).release i
             counters := { p.counters with written := p.counters.written + 1 } }.record
      (.written name (m.rob.place k) result instr (p.stations.waiters tag))
  show finish (n.promote (m.rob.place k) .written) = _
  rw [hpr]
  rfl

/-- Renaming leaves the queue of the free registers as it is. -/
theorem rename_eq {dest : Option Register} {tag : Tag} (h : m.rename dest tag = .ok m') :
    ∃ (physical : PhysicalFile) (aliases : AliasTable), physical.free = m.physical.free ∧
      physical.count = m.physical.count ∧ m' = { m with physical, aliases } := by
  unfold rename at h
  split at h
  · obtain rfl := Except.ok.inj h
    exact ⟨m.physical, m.aliases, rfl, rfl, rfl⟩
  · simp only [bind_eq_ok_iff, pure_eq_ok_iff] at h
    obtain ⟨value, -, physical, hp, rfl⟩ := h
    rw [PhysicalFile.set, map_eq_ok_iff] at hp
    obtain ⟨values, hv, rfl⟩ := hp
    exact ⟨⟨m.physical.free, values⟩, _, rfl, size_writeAt hv, rfl⟩

theorem dispatch_eq (hring : m.rob.Contiguous) {v : Instance} {i : Nat} {left : Operand}
    {right : Option Operand} {tag : Tag} (h : m.dispatch v i left right tag = .ok m') :
    ∃ (st : Station) (rob : ReorderBuffer) (physical : PhysicalFile) (aliases : AliasTable),
      m.stations.stations[i]? = some st ∧
      rob.Contiguous ∧ rob.window = m.rob.window ++ [.issued v tag m.cycle] ∧
      physical.free = m.physical.free ∧ physical.count = m.physical.count ∧
      m' = { m with
        rob, physical, aliases
        fetch := (m.fetch.modify v.id (moved .issued (Slot.issued v tag m.cycle).times)).advance
        stations := m.stations.modify i fun st => st.occupied v.instr left right tag
        counters := { m.counters with issued := m.counters.issued + 1 }
        events := m.events.push ⟨m.cycle, .issued v.instr (rob.place m.rob.window.length) st.name tag⟩ } := by
  simp only [dispatch, bind_eq_ok_iff, guarded_eq_ok_iff, pure_eq_ok_iff] at h
  obtain ⟨⟨slot, claimed⟩, ha, renamed, hr, st, hst, rfl⟩ := h
  let f : Slot → Slot := fun entry =>
    { entry with instr := some v.instr, occupant := some v.id, state := .processing, arch := v.instr.dest
                 tag := some tag, times := { entry.times with issue := some m.cycle } }
  let rob := claimed.modify slot f
  obtain ⟨hc, hw, hplace⟩ := hring.allocate_modify ha (f := f) fun _ => rfl
  change rob.window = m.rob.window ++ [.issued v tag m.cycle] at hw
  change slot = rob.place m.rob.window.length at hplace
  have hget : rob.slots[slot]? = some (.issued v tag m.cycle) := by
    rw [hplace]
    refine hc.getElem?_slots ?_
    show rob.window[m.rob.window.length]? = _
    rw [hw]
    simp
  obtain ⟨physical, aliases, hfree, hcount, rfl⟩ := rename_eq hr
  refine ⟨st, rob, physical, aliases, readAt_eq_ok_iff.1 hst, hc, hw, hfree, hcount, ?_⟩
  let n : Machine := { m with
    rob, physical, aliases, stations := m.stations.modify i fun st => st.occupied v.instr left right tag }
  have hp : n.promote slot .issued =
      { n with fetch := n.fetch.modify v.id (moved .issued (Slot.issued v tag m.cycle).times) } :=
    promote_of_slot (s := Slot.issued v tag m.cycle) hget rfl .issued
  let finish (p : Machine) : Machine :=
    { p with fetch := p.fetch.advance
             counters := { p.counters with issued := p.counters.issued + 1 } }.record
      (.issued v.instr slot st.name tag)
  show finish (n.promote slot .issued) = _
  rw [hp, ← hplace]
  rfl

theorem retire_eq {rest : List Slot} (hring : m.rob.Contiguous) (hw : m.rob.window = s :: rest)
    {tag : Tag} (h : m.retire (some tag) = .ok m') :
    ∃ (rob : ReorderBuffer) (physical : PhysicalFile), rob.Contiguous ∧ rob.window = rest ∧
      m.physical.release tag = .ok physical ∧ m' = { m with rob, physical } := by
  simp only [retire, bind_eq_ok_iff, pure_eq_ok_iff] at h
  obtain ⟨⟨i, rob⟩, hr, physical, hp, rfl⟩ := h
  obtain ⟨hc, hw', -⟩ := hring.retire hr
  rw [hw] at hw'
  exact ⟨rob, physical, hc, hw', hp, rfl⟩

theorem publish_eq {tag : Tag} (ht : s.tag = some tag) (h : m.publish s = .ok m') :
    ∃ (registers : RegisterFile) (aliases : AliasTable),
      registers = m.registers.write s.arch (s.result.getD 0.0) ∧
      (∀ q, registers.read q = if s.arch = some q then s.result.getD 0.0 else m.registers.read q) ∧
      m' = { m with registers, aliases } := by
  unfold publish at h
  cases ha : s.arch with
  | none =>
    simp only [ha] at h
    obtain rfl := Except.ok.inj h
    exact ⟨m.registers, m.aliases, rfl, by simp, rfl⟩
  | some r =>
    simp only [ha, ht, bind_eq_ok_iff, pure_eq_ok_iff] at h
    obtain ⟨registers, hr, rfl⟩ := h
    refine ⟨registers, _, RegisterFile.write_of_set hr, fun q => ?_, rfl⟩
    rw [RegisterFile.read_of_set hr]
    simp

theorem commitHead_eq {rest : List Slot} (hring : m.rob.Contiguous) (hw : m.rob.window = s :: rest)
    (ho : s.occupant = some id) {tag : Tag} (ht : s.tag = some tag) (h : m.commitHead s = .ok m') :
    ∃ (rob : ReorderBuffer) (physical : PhysicalFile) (registers : RegisterFile) (aliases : AliasTable),
      rob.Contiguous ∧ rob.window = rest ∧ m.physical.release tag = .ok physical ∧
      registers = m.registers.write s.arch (s.result.getD 0.0) ∧
      (∀ q, registers.read q = if s.arch = some q then s.result.getD 0.0 else m.registers.read q) ∧
      m' = { m with
        rob, physical, registers, aliases
        fetch := m.fetch.modify id (moved .committed (s.completed m.cycle).times)
        commits := m.commits.push id
        counters := { m.counters with committed := m.counters.committed + 1 }
        events := m.events.push ⟨m.cycle, commitMessage s⟩ } := by
  have hk : m.rob.window[0]? = some s := by rw [hw]; rfl
  let done := m.rob.modify m.rob.head (Slot.completed m.cycle)
  have hdone : done.Contiguous := (hring.modify _ (f := Slot.completed m.cycle) fun _ => rfl).1
  have hwdone : done.window = s.completed m.cycle :: rest := by
    show (m.rob.modify m.rob.head (Slot.completed m.cycle)).window = _
    rw [← m.rob.place_zero, hring.window_modify (by rw [hw]; simp) (f := Slot.completed m.cycle)
      fun _ => rfl, hw]
    rfl
  have hslot : done.slots[m.rob.head]? = some (s.completed m.cycle) := by
    rw [← m.rob.place_zero, ReorderBuffer.getElem?_slots_modify, m.rob.place_zero, if_pos rfl,
      ← m.rob.place_zero, hring.getElem?_slots hk, Option.map_some]
  let n : Machine := { m with rob := done }
  have hp : n.promote m.rob.head .committed =
      { n with fetch := n.fetch.modify id (moved .committed (s.completed m.cycle).times) } :=
    promote_of_slot (s := s.completed m.cycle) hslot ho .committed
  simp only [commitHead, bind_eq_ok_iff, pure_eq_ok_iff] at h
  obtain ⟨published, hpub, retired, hret, rfl⟩ := h
  change (n.promote m.rob.head .committed).publish s = .ok published at hpub
  rw [hp] at hpub
  obtain ⟨registers, aliases, hwrite, hread, rfl⟩ := publish_eq ht hpub
  rw [ht] at hret
  obtain ⟨rob, physical, hc, hw', hrel, rfl⟩ := retire_eq hdone hwdone hret
  refine ⟨rob, physical, registers, aliases, hc, hw', hrel, hwrite, hread, ?_⟩
  rw [ho]
  rfl

end Machine

end OutOfOrder
