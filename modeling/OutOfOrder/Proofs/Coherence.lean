import OutOfOrder.Machine.Cycle
import OutOfOrder.Proofs.Circulation
import OutOfOrder.Proofs.Effects
import OutOfOrder.Proofs.Squash
import OutOfOrder.Proofs.Steady

/-!
What holds of a machine that runs a program, and what the single moves then amount to.
-/

set_option autoImplicit false

namespace OutOfOrder

structure Coherent (code : List Instruction) (m : Machine) : Prop where
  ring : m.rob.Contiguous
  order : Sequenced code m.fetch m.rob.window m.commits.toList
  aged : Aged m.cycle m.rob.window
  results : ∀ s ∈ m.rob.window, s.ready = true → s.result.isSome = true
  count_le : m.physical.count ≤ UInt16.size
  tags : Circulates m.rob.window m.physical
  staffed : Staffed m.registers m.rob.window m.stations

namespace Coherent

variable {code : List Instruction} {m m' : Machine} {k : Nat} {s : Slot} {id : InstanceId}

theorem nodup_tags (h : Coherent code m) : (m.rob.window.map Slot.tag).Nodup :=
  h.tags.nodup_tags h.count_le

theorem slot_of_tag (h : Coherent code m) {s t : Slot} (hs : s ∈ m.rob.window) (ht : t ∈ m.rob.window)
    (he : s.tag = t.tag) : s = t := List.inj_on_of_nodup_map h.nodup_tags hs ht he

theorem slot_of_occupant (h : Coherent code m) {s t : Slot} (hs : s ∈ m.rob.window)
    (ht : t ∈ m.rob.window) (he : s.occupant = t.occupant) : s = t :=
  List.inj_on_of_nodup_map h.order.nodup hs ht he

theorem index_of_tag (h : Coherent code m) {j k : Nat} {s t : Slot} (hj : m.rob.window[j]? = some s)
    (hk : m.rob.window[k]? = some t) (he : s.tag = t.tag) : j = k := by
  have hlt := (List.getElem?_eq_some_iff.1 hj).1
  refine (List.getElem?_inj (by simpa using hlt) h.nodup_tags).1 ?_
  rw [List.getElem?_map, List.getElem?_map, hj, hk, Option.map_some, Option.map_some, he]

/-- The search for what only one slot has. -/
theorem find_eq (h : Coherent code m) (hk : m.rob.window[k]? = some s) {p : Slot → Bool} (hp : p s = true)
    (honly : ∀ t ∈ m.rob.window, p t = true → t = s) : m.rob.find p = some (m.rob.place k) := by
  cases hfound : m.rob.find p with
  | none =>
    have hnone := h.ring.find_eq_none hfound s (List.mem_of_getElem? hk)
    simp [hp] at hnone
  | some i =>
    obtain ⟨j, t, rfl, hj, hpt⟩ := h.ring.find_eq_some hfound
    obtain rfl := honly t (List.mem_of_getElem? hj) hpt
    rw [h.index_of_tag hj hk rfl]

theorem slotFor_eq (h : Coherent code m) (hk : m.rob.window[k]? = some s) {tag : Tag}
    (ht : s.tag = some tag) : m.rob.slotFor tag = some (m.rob.place k) :=
  h.find_eq hk (by simp [ht]) fun _ hmem hp =>
    h.slot_of_tag hmem (List.mem_of_getElem? hk) ((by simpa using hp : _ = some tag).trans ht.symm)

theorem slotOf_eq (h : Coherent code m) (hk : m.rob.window[k]? = some s) (ho : s.occupant = some id) :
    m.rob.slotOf id = some (m.rob.place k) :=
  h.find_eq hk (by simp [ho]) fun _ hmem hp =>
    h.slot_of_occupant hmem (List.mem_of_getElem? hk) ((by simpa using hp : _ = some id).trans ho.symm)

/-- The slot that a busy station works for. -/
theorem pending_of_busy (h : Coherent code m) {i : Nat} {st : Station}
    (hi : m.stations.stations[i]? = some st) (hb : st.busy = true) (hk : m.rob.window[k]? = some s)
    (ht : s.tag = st.dest) : s.isPending = true ∧ Fed m.registers m.rob.window k st := by
  obtain ⟨j, t, hj, hp, htag, hf⟩ := h.staffed.serves i st hi hb
  obtain rfl := h.index_of_tag hj hk (htag.trans ht.symm)
  rw [hk] at hj
  obtain rfl := Option.some.inj hj
  exact ⟨hp, hf⟩

/-- The version in a slot that was not cancelled. -/
theorem exists_current (h : Coherent code m) (hs : s ∈ m.rob.window) (hl : s.isLive = true) :
    ∃ v, s.occupant = some v.id ∧ m.fetch.current? v.id.position = some v := by
  obtain ⟨v, ho, hv, -⟩ := h.order.current_of_live hs hl
  exact ⟨v, ho, hv⟩

theorem revise_sameRole {g : Slot → Slot} {w : List Slot}
    (hg : ∀ t ∈ w, t.occupant = some id → t.SameRole (g t)) :
    ∀ t ∈ w, t.SameRole (t.revise id g) := by
  intro t ht
  unfold Slot.revise
  split
  · next ho => exact hg t ht ho
  · exact ⟨rfl, rfl, rfl, rfl, rfl, rfl⟩

/-- Progress of the slot of one version is none for the others. -/
theorem revise_keeps {g : Slot → Slot} (hg : ∀ t : Slot, (g t).ready = t.ready ∧ (g t).result = t.result)
    (t : Slot) : (t.revise id g).ready = t.ready ∧ (t.revise id g).result = t.result := by
  unfold Slot.revise
  split
  · exact hg t
  · exact ⟨rfl, rfl⟩

theorem arrives (h : Coherent code m) {tag : Tag} (hs : s ∈ m.rob.window) (hp : s.isPending = true)
    (ht : s.tag = some tag) (ho : s.occupant = some id) (result : Word) :
    Arrives m.rob.window tag result (Slot.revise id (Slot.holding m.cycle result)) := by
  obtain ⟨hl, hready⟩ := Slot.isPending_eq_true.1 hp
  refine ⟨revise_sameRole fun t ht hto => ?_, fun t htm => h.tags.isSome htm, fun t htm htt => ?_,
    fun t htm htt => ?_⟩
  · rw [h.slot_of_occupant ht hs (hto.trans ho.symm)]
    exact s.holding_sameRole _ _ hl
  · rw [h.slot_of_tag htm hs (htt.trans ht.symm)]
    exact ⟨hready, by rw [Slot.revise, if_pos ho]; rfl, by rw [Slot.revise, if_pos ho]; rfl⟩
  · have hne : t.occupant ≠ some id := by
      intro hto
      rw [h.slot_of_occupant htm hs (hto.trans ho.symm)] at htt
      exact htt ht
    rw [Slot.revise, if_neg hne]
    exact ⟨rfl, rfl⟩

theorem operands_eq (h : Coherent code m) {instr : Instruction} {left : Operand}
    {right : Option Operand} (ho : m.operands instr = .ok (left, right)) :
    left = source m.registers m.rob.window instr.sources.1 ∧
      right = instr.sources.2.map (source m.registers m.rob.window) := by
  simp only [Machine.operands, bind_eq_ok_iff, pure_eq_ok_iff, Prod.mk.injEq] at ho
  obtain ⟨l, hl, r, hr, rfl, rfl⟩ := ho
  refine ⟨operandFor_eq h.ring h.aged hl, ?_⟩
  cases hs : instr.sources.2 with
  | none =>
    rw [hs] at hr
    exact (Except.ok.inj hr).symm
  | some q =>
    rw [hs, Machine.operandFor?, map_eq_ok_iff] at hr
    obtain ⟨o, ho, rfl⟩ := hr
    rw [operandFor_eq h.ring h.aged ho]
    rfl

theorem mem_tags_issuedAfter (h : Coherent code m) {b : Nat} (hb : m.commits.toList.length ≤ b) (tag : Tag) :
    tag ∈ tagsOf (m.fetch.issuedAfter b) m.rob.window ↔
      ∃ t ∈ m.rob.window, t.isAfter b = true ∧ t.tag = some tag := by
  rw [mem_tagsOf]
  constructor
  · rintro ⟨t, ht, hto, htt⟩
    exact ⟨t, ht, (h.order.mem_issuedAfter_iff hb ht).1 hto, htt⟩
  · rintro ⟨t, ht, hta, htt⟩
    exact ⟨t, ht, (h.order.mem_issuedAfter_iff hb ht).2 hta, htt⟩

end Coherent

namespace Machine

open Sequenced (moved)

/-- A slot whose result is still to come, and the version in it. -/
structure Awaits (m : Machine) (k : Nat) (s : Slot) (v : Instance) : Prop where
  slot : m.rob.window[k]? = some s
  pending : s.isPending = true
  occupant : s.occupant = some v.id
  current : m.fetch.current? v.id.position = some v
  uncommitted : m.commits.toList.length ≤ v.id.position
  issued : v.id.position < m.fetch.pc

/-- A station gives its result to the slot that it works for, and to whoever waits for it. -/
structure Computes (m : Machine) (i k : Nat) (st : Station) (s : Slot) (v : Instance) (op : Opcode)
    (tag : Tag) (computed result : Word) (memory : Memory) (rob : ReorderBuffer)
    (physical : PhysicalFile) : Prop extends Awaits m k s v where
  station : m.stations.stations[i]? = some st
  busy : st.busy = true
  ready : st.isReady = true
  opcode : st.opcode = some op
  dest : st.dest = some tag
  computes : st.result = .ok computed
  accesses : m.memory.access op computed (Station.operandValue st.right) = (result, memory)
  named : s.tag = some tag
  fed : Fed m.registers m.rob.window k st
  ring : rob.Contiguous
  window : rob.window = m.rob.window.map (Slot.revise v.id (Slot.holding m.cycle result))
  arrives : Arrives m.rob.window tag result (Slot.revise v.id (Slot.holding m.cycle result))
  written : m.physical.set tag result = .ok physical

/-- Whatever lies behind the branch in a slot is cancelled and leaves its station. -/
structure Squashes (m : Machine) (s : Slot) (v : Instance) (i : Instruction) (rob : ReorderBuffer)
    (stations : StationTable) : Prop where
  slot : s ∈ m.rob.window
  holds : s.instr = some i
  branch : i.opcode.isBranch = true
  uncommitted : m.commits.toList.length ≤ v.id.position
  issued : v.id.position < m.fetch.pc
  ring : rob.Contiguous
  window : rob.window = m.rob.window.map (Slot.cancelAfter v.id.position)
  vacated : ∀ j : Nat, stations.stations[j]? = m.stations.stations[j]?.map
    (Staffed.vacate (tagsOf (m.fetch.issuedAfter v.id.position) m.rob.window))

/-- A slot gets ahead and has no result yet. -/
structure Progresses (m : Machine) (k : Nat) (s : Slot) (v : Instance) (progress : Slot → Slot)
    (rob : ReorderBuffer) : Prop extends Awaits m k s v where
  ring : rob.Contiguous
  window : rob.window = m.rob.window.map (Slot.revise v.id progress)
  roles : ∀ t ∈ m.rob.window, t.SameRole (t.revise v.id progress)
  same : ∀ t ∈ m.rob.window, (t.revise v.id progress).ready = t.ready ∧
    (t.revise v.id progress).result = t.result

/-- The version at the cursor gets a station, a register and the slot behind the last one. -/
structure Issues (m : Machine) (v : Instance) (i : Nat) (st : Station) (left : Operand)
    (right : Option Operand) (tag : Tag) (rob : ReorderBuffer) (allocated physical : PhysicalFile) :
    Prop where
  next : m.fetch.next? = some v
  position : v.id.position = m.fetch.pc
  current : m.fetch.current? v.id.position = some v
  station : m.stations.stations[i]? = some st
  idle : st.busy = false
  serves : Serves (source m.registers m.rob.window) v.instr (st.occupied v.instr left right tag)
  register : m.physical.allocate = some (tag, allocated)
  free : physical.free = allocated.free
  count : physical.count = allocated.count
  ring : rob.Contiguous
  window : rob.window = m.rob.window ++ [.issued v tag m.cycle]

/-- The head leaves the window and gives its register back. -/
structure Retires (m : Machine) (s : Slot) (rest : List Slot) (tag : Tag) (rob : ReorderBuffer)
    (physical : PhysicalFile) : Prop where
  head : m.rob.window = s :: rest
  named : s.tag = some tag
  ring : rob.Contiguous
  window : rob.window = rest
  released : m.physical.release tag = .ok physical

structure Commits (m : Machine) (s : Slot) (rest : List Slot) (v : Instance) (tag : Tag) (value : Word)
    (rob : ReorderBuffer) (physical : PhysicalFile) : Prop extends Retires m s rest tag rob physical where
  live : s.isLive = true
  ready : s.ready = true
  result : s.result = some value
  occupant : s.occupant = some v.id
  current : m.fetch.current? v.id.position = some v
  position : v.id.position = m.commits.toList.length
  reads : ∀ q, (m.registers.write s.arch value).read q =
    if s.arch = some q then value else m.registers.read q

/-- What a move makes of a coherent machine. -/
inductive Change (m : Machine) : List Deed → Machine → Prop
  | compute {i k : Nat} {st : Station} {s : Slot} {v : Instance} {op : Opcode} {tag : Tag}
      {computed result : Word} {memory : Memory} {rob : ReorderBuffer} {physical : PhysicalFile}
      (done : m.Computes i k st s v op tag computed result memory rob physical) :
      Change m [.computed ⟨v.id, st, result⟩] { m with
        memory, rob, physical
        fetch := m.fetch.modify v.id (moved .written (s.holding m.cycle result).times)
        stations := (m.stations.broadcast tag result).release i
        counters := { m.counters with written := m.counters.written + 1 }
        events := m.events.push
          ⟨m.cycle, .written st.name (m.rob.place k) result s.instr (m.stations.waiters tag)⟩ }
  | squash {s : Slot} {v : Instance} {i : Instruction} {rob : ReorderBuffer} {stations : StationTable}
      {events : Array Event} {aliases : AliasTable} (done : m.Squashes s v i rob stations) :
      Change m [] { m with
        rob, stations, events, aliases
        fetch := m.fetch.renewAfter v.id.position
        counters := { m.counters with
          squashed := m.counters.squashed + (m.fetch.issuedAfter v.id.position).length } }
  | wait : Change m [] { m with counters := { m.counters with stalls := m.counters.stalls + 1 } }
  | start {k : Nat} {s : Slot} {v : Instance} {rob : ReorderBuffer} (name : String)
      (done : m.Progresses k s v (Slot.started m.cycle) rob) :
      Change m [] { m with rob, events := m.events.push ⟨m.cycle, .started name s.instr⟩ }
  | restart : Change m [] m
  | countdown {i : Nat} {st : Station} (station : m.stations.stations[i]? = some st)
      (ready : st.isReady = true) : Change m [] (m.countdown i)
  | complete {i k : Nat} {st : Station} {s : Slot} {v : Instance} {rob : ReorderBuffer} (name : String)
      (shown : Slot) (station : m.stations.stations[i]? = some st) (ready : st.isReady = true)
      (done : m.Progresses k s v (Slot.executed m.cycle) rob) :
      Change m [] { m.countdown i with
        rob
        fetch := m.fetch.modify v.id (moved .executed (s.executed m.cycle).times)
        counters := { m.counters with executed := m.counters.executed + 1 }
        events := m.events.push ⟨m.cycle, .completed name shown.instr⟩ }
  | stall (shortage : Shortage) : Change m [] (m.stall shortage)
  | issue {v : Instance} {i : Nat} {st : Station} {left : Operand} {right : Option Operand} {tag : Tag}
      {rob : ReorderBuffer} {allocated physical : PhysicalFile} {aliases : AliasTable}
      (done : m.Issues v i st left right tag rob allocated physical) :
      Change m [] { m with
        rob, physical, aliases
        fetch := (m.fetch.modify v.id (moved .issued (Slot.issued v tag m.cycle).times)).advance
        stations := m.stations.modify i fun st => st.occupied v.instr left right tag
        counters := { m.counters with issued := m.counters.issued + 1 }
        events := m.events.push ⟨m.cycle, .issued v.instr (rob.place m.rob.window.length) st.name tag⟩ }
  | commit {s : Slot} {rest : List Slot} {v : Instance} {tag : Tag} {value : Word} {rob : ReorderBuffer}
      {physical : PhysicalFile} {aliases : AliasTable} (done : m.Commits s rest v tag value rob physical) :
      Change m [.retired value] { m with
        rob, physical, aliases
        registers := m.registers.write s.arch value
        fetch := m.fetch.modify v.id (moved .committed (s.completed m.cycle).times)
        commits := m.commits.push v.id
        counters := { m.counters with committed := m.counters.committed + 1 }
        events := m.events.push ⟨m.cycle, commitMessage s⟩ }
  | discard {s : Slot} {rest : List Slot} {tag : Tag} {rob : ReorderBuffer} {physical : PhysicalFile}
      (dead : s.isLive = false) (done : m.Retires s rest tag rob physical) :
      Change m [] { m with
        rob, physical, events := m.events.push ⟨m.cycle, .discarded s.instr m.rob.head⟩ }

namespace Awaits

variable {m : Machine} {k : Nat} {s : Slot} {v : Instance}

theorem mem (h : m.Awaits k s v) : s ∈ m.rob.window := List.mem_of_getElem? h.slot

theorem isLive (h : m.Awaits k s v) : s.isLive = true := (Slot.isPending_eq_true.1 h.pending).1

theorem not_ready (h : m.Awaits k s v) : s.ready = false := (Slot.isPending_eq_true.1 h.pending).2

end Awaits

end Machine

namespace Coherent

open Sequenced (moved)

variable {code : List Instruction} {m m' : Machine}

/-- A slot that waits for its result holds a current version. -/
theorem awaits (h : Coherent code m) {k : Nat} {s : Slot} (hk : m.rob.window[k]? = some s)
    (hp : s.isPending = true) : ∃ v, m.Awaits k s v := by
  have hl := (Slot.isPending_eq_true.1 hp).1
  obtain ⟨v, ho, hv, hc, hpc⟩ := h.order.current_of_live (List.mem_of_getElem? hk) hl
  exact ⟨v, hk, hp, ho, hv, hc, hpc⟩

theorem progresses (h : Coherent code m) {k : Nat} {s : Slot} {v : Instance} (ha : m.Awaits k s v)
    {g : Slot → Slot} (hbusy : ∀ t, (g t).busy = t.busy) (hrole : s.SameRole (g s))
    (hsame : ∀ t : Slot, (g t).ready = t.ready ∧ (g t).result = t.result) :
    m.Progresses k s v g (m.rob.modify (m.rob.place k) g) where
  toAwaits := ha
  ring := (h.ring.modify _ hbusy).1
  window := h.ring.window_revise h.order.nodup ha.slot ha.occupant hbusy
  roles := revise_sameRole fun t ht hto => by
    rw [h.slot_of_occupant ht ha.mem (hto.trans ha.occupant.symm)]
    exact hrole
  same := fun t _ => revise_keeps hsame t

/-- A station that is done gives its result away. -/
theorem computes (h : Coherent code m) {i k : Nat} {st : Station} {s : Slot} {op : Opcode} {tag : Tag}
    {id : InstanceId} {computed : Word} (station : m.stations.stations[i]? = some st)
    (busy : st.busy = true) (done : st.remaining = 0) (opcode : st.opcode = some op)
    (dest : st.dest = some tag) (slot : m.rob.window[k]? = some s) (named : s.tag = some tag)
    (occupant : s.occupant = some id) (result : st.result = .ok computed)
    (delivered : { m with
        memory := (m.memory.access op computed (Station.operandValue st.right)).2 }.deliver i st.name
      (m.rob.place k) tag (m.memory.access op computed (Station.operandValue st.right)).1 s.instr =
        .ok m') :
    ∃ v memory rob physical, v.id = id ∧ m.Computes i k st s v op tag computed
        (m.memory.access op computed (Station.operandValue st.right)).1 memory rob physical ∧
      m' = { m with
        memory, rob, physical
        fetch := m.fetch.modify v.id (moved .written
          (s.holding m.cycle (m.memory.access op computed (Station.operandValue st.right)).1).times)
        stations := (m.stations.broadcast tag
          (m.memory.access op computed (Station.operandValue st.right)).1).release i
        counters := { m.counters with written := m.counters.written + 1 }
        events := m.events.push ⟨m.cycle, .written st.name (m.rob.place k)
          (m.memory.access op computed (Station.operandValue st.right)).1 s.instr
          (m.stations.waiters tag)⟩ } := by
  obtain ⟨pending, fed⟩ := h.pending_of_busy station busy slot (named.trans dest.symm)
  obtain ⟨v, ha⟩ := h.awaits slot pending
  obtain rfl := Option.some.inj (occupant.symm.trans ha.occupant)
  let accessed := m.memory.access op computed (Station.operandValue st.right)
  obtain ⟨physical, written, rfl⟩ :=
    Machine.deliver_eq (m := { m with memory := accessed.2 }) h.ring slot occupant delivered
  exact ⟨v, accessed.2, m.rob.modify (m.rob.place k) (Slot.holding m.cycle accessed.1), physical, rfl,
    { toAwaits := ha, station, busy, ready := h.staffed.finished i st station busy done, opcode, dest
      computes := result, accesses := rfl, named, fed
      ring := (h.ring.modify _ (f := Slot.holding m.cycle accessed.1) fun _ => rfl).1
      window := h.ring.window_revise h.order.nodup slot occupant (g := Slot.holding m.cycle accessed.1)
        fun _ => rfl
      arrives := h.arrives ha.mem pending named occupant accessed.1, written }, rfl⟩

/-- A branch in the window squashes. -/
theorem squashes (h : Coherent code m) {s : Slot} {id : InstanceId} {instr : Instruction}
    (slot : s ∈ m.rob.window) (live : s.isLive = true) (occupant : s.occupant = some id)
    (holds : s.instr = some instr) (branch : instr.opcode.isBranch = true) :
    ∃ v rob stations events aliases, v.id = id ∧ m.Squashes s v instr rob stations ∧
      m.squashYounger id.position = { m with
        rob, stations, events, aliases
        fetch := m.fetch.renewAfter v.id.position
        counters := { m.counters with
          squashed := m.counters.squashed + (m.fetch.issuedAfter v.id.position).length } } := by
  obtain ⟨v, ho, -, uncommitted, issued⟩ := h.order.current_of_live slot live
  obtain rfl := Option.some.inj (occupant.symm.trans ho)
  obtain ⟨rob, stations, events, aliases, heq, ring, hw, vacated⟩ :=
    Machine.squashYounger_eq h.ring h.order.nodup h.staffed.unique v.id.position
  refine ⟨v, rob, stations, events, aliases, rfl,
    ⟨slot, holds, branch, uncommitted, issued, ring, ?_, vacated⟩, heq⟩
  rw [hw]
  refine List.map_congr_left fun t ht => ?_
  have hiff := h.order.mem_issuedAfter_iff uncommitted ht
  unfold Slot.cancelIn Slot.cancelAfter
  by_cases ha : t.isAfter v.id.position = true
  · rw [if_pos (hiff.2 ha), if_pos ha]
    rfl
  · rw [if_neg fun hm => ha (hiff.1 hm), if_neg ha]

/-- The instruction at the cursor is dispatched. -/
theorem issues (h : Coherent code m) {v : Instance} {i : Nat} {left : Operand} {right : Option Operand}
    {tag : Tag} {allocated : PhysicalFile} (next : m.fetch.next? = some v)
    (station : m.stations.idleIn v.instr.opcode.unit = some i)
    (operands : m.operands v.instr = .ok (left, right))
    (register : m.physical.allocate = some (tag, allocated))
    (dispatched : Machine.dispatch { m with physical := allocated } v i left right tag = .ok m') :
    ∃ st rob physical aliases, m.Issues v i st left right tag rob allocated physical ∧ m' = { m with
      rob, physical, aliases
      fetch := (m.fetch.modify v.id (moved .issued (Slot.issued v tag m.cycle).times)).advance
      stations := m.stations.modify i fun st => st.occupied v.instr left right tag
      counters := { m.counters with issued := m.counters.issued + 1 }
      events := m.events.push
        ⟨m.cycle, .issued v.instr (rob.place m.rob.window.length) st.name tag⟩ } := by
  have position : v.id.position = m.fetch.pc := h.order.orderly.position_current next
  obtain ⟨st, rob, physical, aliases, hi, ring, window, free, count, rfl⟩ :=
    Machine.dispatch_eq (m := { m with physical := allocated }) h.ring dispatched
  obtain ⟨hleft, hright⟩ := h.operands_eq operands
  change m.stations.stations[i]? = some st at hi
  obtain ⟨hlt, hfound, -⟩ := Array.findIdx?_eq_some_iff_getElem.1 station
  have hst : m.stations.stations[i] = st := by
    rwa [Array.getElem?_eq_getElem hlt, Option.some.injEq] at hi
  rw [hst, Bool.and_eq_true, beq_iff_eq, Bool.not_eq_true'] at hfound
  exact ⟨st, rob, physical, aliases,
    { next, position, current := by rw [position]; exact next
      station := hi, idle := hfound.2
      serves := ⟨hfound.1, rfl, rfl, congrArg some hleft, hright⟩
      register, free, count, ring, window }, rfl⟩

/-- The head commits. -/
theorem commits (h : Coherent code m) {s : Slot} {rest : List Slot} (head : m.rob.window = s :: rest)
    (live : s.isLive = true) (may : m.mayCommit s = true) (committed : m.commitHead s = .ok m') :
    ∃ v tag rob physical aliases, m.Commits s rest v tag (s.result.getD 0.0) rob physical ∧ m' = { m with
      rob, physical, aliases
      registers := m.registers.write s.arch (s.result.getD 0.0)
      fetch := m.fetch.modify v.id (moved .committed (s.completed m.cycle).times)
      commits := m.commits.push v.id
      counters := { m.counters with committed := m.counters.committed + 1 }
      events := m.events.push ⟨m.cycle, Machine.commitMessage s⟩ } := by
  rw [Machine.mayCommit, Bool.and_eq_true] at may
  have hs : s ∈ m.rob.window := by rw [head]; exact List.mem_cons_self ..
  obtain ⟨tag, named⟩ := Option.isSome_iff_exists.1 (h.tags.isSome hs)
  obtain ⟨value, result⟩ := Option.isSome_iff_exists.1 (h.results s hs may.1)
  obtain ⟨v, occupant, current⟩ := h.exists_current hs live
  obtain ⟨rob, physical, registers, aliases, ring, window, released, hwrite, reads, rfl⟩ :=
    Machine.commitHead_eq h.ring head occupant named committed
  have horder := h.order
  rw [head] at horder
  subst hwrite
  exact ⟨v, tag, rob, physical, aliases,
    { head, named, ring, window, released, live, ready := may.1, result := by rw [result]; rfl, occupant
      current, position := (horder.commit live occupant current Times.none).1, reads }, rfl⟩

/-- A cancelled head retires. -/
theorem discards (h : Coherent code m) {s : Slot} {rest : List Slot} (head : m.rob.window = s :: rest)
    (retired : m.retire s.tag = .ok m') :
    ∃ tag rob physical, m.Retires s rest tag rob physical ∧ m' = { m with rob, physical } := by
  have hs : s ∈ m.rob.window := by rw [head]; exact List.mem_cons_self ..
  obtain ⟨tag, named⟩ := Option.isSome_iff_exists.1 (h.tags.isSome hs)
  rw [named] at retired
  obtain ⟨rob, physical, ring, window, released, rfl⟩ := Machine.retire_eq h.ring head retired
  exact ⟨tag, rob, physical, ⟨head, named, ring, window, released⟩, rfl⟩

theorem change (h : Coherent code m) {d : List Deed} (hm : m.Move d m') : m.Change d m' := by
  cases hm with
  | compute station busy done opcode dest slot named occupant result delivered =>
    obtain ⟨v, memory, rob, physical, rfl, computes, rfl⟩ :=
      h.computes station busy done opcode dest slot named occupant result delivered
    exact .compute computes
  | squash slot live occupant holds branch =>
    obtain ⟨v, rob, stations, events, aliases, rfl, squashes, heq⟩ :=
      h.squashes slot live occupant holds branch
    rw [heq]
    exact .squash squashes
  | wait => exact .wait
  | @start i k st s name station busy slot named =>
    obtain ⟨v, ha⟩ := h.awaits slot (h.pending_of_busy station busy slot named).1
    rw [Machine.startExecution_eq]
    split
    · exact .start name
        (h.progresses ha (g := Slot.started m.cycle) (fun _ => rfl) (s.started_sameRole _ ha.isLive)
          fun _ => ⟨rfl, rfl⟩)
    · exact .restart
  | countdown station _ ready _ => exact .countdown station ready
  | @complete i k st s name shown station busy ready _ slot named =>
    obtain ⟨v, ha⟩ := h.awaits slot (h.pending_of_busy station busy slot named).1
    have heq := Machine.completeExecution_eq (m := m.countdown i) h.ring slot ha.occupant name shown
    rw [show m.rob.place k = (m.countdown i).rob.place k from rfl, heq]
    exact .complete name shown station ready
      (h.progresses ha (g := Slot.executed m.cycle) (fun _ => rfl) (s.executed_sameRole _) fun _ => ⟨rfl, rfl⟩)
  | stall shortage => exact .stall shortage
  | issue next station operands register dispatched =>
    obtain ⟨st, rob, physical, aliases, issues, rfl⟩ :=
      h.issues next station operands register dispatched
    exact .issue issues
  | commit head live may committed =>
    obtain ⟨v, tag, rob, physical, aliases, commits, rfl⟩ := h.commits head live may committed
    exact .commit commits
  | discard head dead retired =>
    obtain ⟨tag, rob, physical, retires, rfl⟩ := h.discards head retired
    exact .discard dead retires

end Coherent

end OutOfOrder
