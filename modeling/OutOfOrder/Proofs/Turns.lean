import OutOfOrder.Proofs.Preservation

/-!
The phases turn by turn: all that the turn of one station, one attempt to issue or one look at the head can
come to.
-/

set_option autoImplicit false

namespace OutOfOrder

namespace Slot

/-- The first cycle of execution is noted. -/
def begun (cycle : Nat) (s : Slot) : Slot := if s.times.execute.isNone then s.started cycle else s

/-- One cycle of execution with so many left before it. -/
def ran (cycle remaining : Nat) (s : Slot) : Slot :=
  if remaining = 1 then (s.begun cycle).executed cycle else s.begun cycle

variable {s : Slot}

theorem begun_sameRole (hl : s.isLive = true) (cycle : Nat) : s.SameRole (s.begun cycle) := by
  unfold begun
  split
  · exact s.started_sameRole cycle hl
  · exact ⟨rfl, rfl, rfl, rfl, rfl, rfl⟩

theorem ran_sameRole (hl : s.isLive = true) (cycle remaining : Nat) :
    s.SameRole (s.ran cycle remaining) := by
  have hb := begun_sameRole hl cycle
  unfold ran
  split
  · exact ⟨hb.isLive, hb.occupant, hb.instr, hb.arch, hb.tag, hb.issue⟩
  · exact hb

theorem ran_keeps (cycle remaining : Nat) (s : Slot) :
    (s.ran cycle remaining).ready = s.ready ∧ (s.ran cycle remaining).result = s.result := by
  unfold ran begun
  split <;> split <;> exact ⟨rfl, rfl⟩

end Slot

namespace Machine

open Sequenced (moved)

variable {code : List Instruction} {m m' : Machine} {i k : Nat}

/-- A station gives its result to its slot. -/
structure Gives (m : Machine) (i k : Nat) (st : Station) (s : Slot) (v : Instance) (tag : Tag)
    (result : Word) (m' : Machine) : Prop extends m.Awaits k s v where
  move : m.Move [.computed ⟨v.id, st, result⟩] m'
  station : m.stations.stations[i]? = some st
  busy : st.busy = true
  last : st.remaining = 0
  dest : st.dest = some tag
  named : s.tag = some tag
  shows : m.computation? i = some ⟨v.id, st, result⟩
  arrives : Arrives m.rob.window tag result (Slot.revise v.id (Slot.holding m.cycle result))
  window : m'.rob.window = m.rob.window.map (Slot.revise v.id (Slot.holding m.cycle result))
  stations : m'.stations = (m.stations.broadcast tag result).release i
  fetch : m'.fetch = m.fetch.modify v.id (moved .written (s.holding m.cycle result).times)
  commits : m'.commits = m.commits
  counters : m'.counters = { m.counters with written := m.counters.written + 1 }

/-- What lies behind a position is cancelled. -/
structure Clears (m : Machine) (b : Nat) (m' : Machine) : Prop where
  move : m.Move [] m'
  uncommitted : m.commits.toList.length ≤ b
  issued : b < m.fetch.pc
  window : m'.rob.window = m.rob.window.map (Slot.cancelAfter b)
  stations : ∀ j : Nat, m'.stations.stations[j]? = m.stations.stations[j]?.map
    (Staffed.vacate (tagsOf (m.fetch.issuedAfter b) m.rob.window))
  fetch : m'.fetch = m.fetch.renewAfter b
  commits : m'.commits = m.commits
  counters : m'.counters = { m.counters with
    squashed := m.counters.squashed + (m.fetch.issuedAfter b).length }

inductive WriteTurn (m : Machine) (i : Nat) : Machine → Prop
  | idle (free : ∀ st, m.stations.stations[i]? = some st → st.busy = false)
      (silent : m.computation? i = none) : WriteTurn m i m
  | gives {k : Nat} {st : Station} {s : Slot} {v : Instance} {tag : Tag} {result : Word} {m' : Machine}
      (given : m.Gives i k st s v tag result m') : WriteTurn m i m'
  | clears {k : Nat} {st : Station} {s : Slot} {v : Instance} {tag : Tag} {result : Word}
      {middle m' : Machine} (given : m.Gives i k st s v tag result middle) (cleared : middle.Clears v.id.position m')
      (branch : st.opcode.any Opcode.isBranch = true) (taken : (result == 1.0) = true) : WriteTurn m i m'

/-- A station with its operands executes for a cycle. -/
structure Runs (m : Machine) (i k : Nat) (st : Station) (s : Slot) (v : Instance) (m' : Machine) :
    Prop extends m.Awaits k s v where
  moves : m.Moves [] m'
  station : m.stations.stations[i]? = some st
  ready : st.isReady = true
  more : st.remaining ≠ 0
  named : s.tag = st.dest
  window : m'.rob.window = m.rob.window.map (Slot.revise v.id (Slot.ran m.cycle st.remaining))
  stations : m'.stations = (m.countdown i).stations
  fetch : m'.fetch = if st.remaining = 1 then
    m.fetch.modify v.id (moved .executed (s.ran m.cycle st.remaining).times) else m.fetch
  commits : m'.commits = m.commits
  counters : m'.counters =
    { m.counters with executed := m.counters.executed + if st.remaining = 1 then 1 else 0 }

inductive ExecuteTurn (m : Machine) (i : Nat) : Machine → Prop
  | rests {st : Station} (station : m.stations.stations[i]? = some st)
      (done : st.busy = false ∨ st.remaining = 0) : ExecuteTurn m i m
  | waits {st : Station} (station : m.stations.stations[i]? = some st) (busy : st.busy = true)
      (more : st.remaining ≠ 0) (unready : st.isReady = false) :
      ExecuteTurn m i { m with counters := { m.counters with stalls := m.counters.stalls + 1 } }
  | runs {k : Nat} {st : Station} {s : Slot} {v : Instance} {m' : Machine}
      (run : m.Runs i k st s v m') : ExecuteTurn m i m'

/-- The instruction at the cursor enters the window. -/
structure Enters (m : Machine) (v : Instance) (i : Nat) (st : Station) (left : Operand)
    (right : Option Operand) (tag : Tag) (m' : Machine) : Prop where
  move : m.Move [] m'
  next : m.fetch.next? = some v
  room : m.rob.hasRoom = true
  station : m.stations.stations[i]? = some st
  unit : st.unit = v.instr.opcode.unit
  idle : st.busy = false
  register : ∃ allocated, m.physical.allocate = some (tag, allocated)
  window : m'.rob.window = m.rob.window ++ [.issued v tag m.cycle]
  stations : m'.stations = m.stations.modify i fun st => st.occupied v.instr left right tag
  fetch : m'.fetch = (m.fetch.modify v.id (moved .issued (Slot.issued v tag m.cycle).times)).advance
  commits : m'.commits = m.commits
  counters : m'.counters = { m.counters with issued := m.counters.issued + 1 }

inductive IssueTurn (m : Machine) : Machine → Prop
  | ended (none : m.fetch.next? = none) : IssueTurn m m
  | stalls {v : Instance} (shortage : Shortage) (next : m.fetch.next? = some v)
      (lack : m.rob.hasRoom = false ∨ m.stations.idleIn v.instr.opcode.unit = none ∨
        m.physical.allocate = none) : IssueTurn m (m.stall shortage)
  | enters {v : Instance} {i : Nat} {st : Station} {left : Operand} {right : Option Operand} {tag : Tag}
      {m' : Machine} (entered : m.Enters v i st left right tag m') : IssueTurn m m'

/-- The head leaves the window. -/
structure Leaves (m : Machine) (s : Slot) (rest : List Slot) (m' : Machine) : Prop where
  head : m.rob.window = s :: rest
  window : m'.rob.window = rest
  stations : m'.stations = m.stations
  pc : m'.fetch.pc = m.fetch.pc
  commits_le : m.commits.toList.length ≤ m'.commits.toList.length
  current : ∀ q, m'.commits.toList.length ≤ q → m'.fetch.current? q = m.fetch.current? q

inductive CommitTurn (m : Machine) : Machine → Prop
  | empty (window : m.rob.window = []) (silent : m.retiring? = none) : CommitTurn m m
  | early {s : Slot} {rest : List Slot} (head : m.rob.window = s :: rest) (live : s.isLive = true)
      (may : m.mayCommit s = false) (silent : m.retiring? = none) : CommitTurn m m
  | commits {s : Slot} {rest : List Slot} {v : Instance} {m' : Machine} (left : m.Leaves s rest m')
      (move : m.Move [.retired (s.result.getD 0.0)] m') (shows : m.retiring? = some (s.result.getD 0.0))
      (live : s.isLive = true) (may : m.mayCommit s = true) (occupant : s.occupant = some v.id)
      (current : m.fetch.current? v.id.position = some v)
      (position : v.id.position = m.commits.toList.length)
      (fetch : m'.fetch = m.fetch.modify v.id (moved .committed (s.completed m.cycle).times))
      (commits : m'.commits = m.commits.push v.id)
      (counters : m'.counters = { m.counters with committed := m.counters.committed + 1 }) :
      CommitTurn m m'
  | discards {s : Slot} {rest : List Slot} {m' : Machine} (left : m.Leaves s rest m') (move : m.Move [] m')
      (silent : m.retiring? = none) (dead : s.isLive = false) (fetch : m'.fetch = m.fetch)
      (commits : m'.commits = m.commits) (counters : m'.counters = m.counters) : CommitTurn m m'

/-- A turn of any phase. -/
inductive Turn (m : Machine) : Machine → Prop
  | write {i : Nat} {m' : Machine} (turn : m.WriteTurn i m') : Turn m m'
  | execute {i : Nat} {m' : Machine} (turn : m.ExecuteTurn i m') : Turn m m'
  | issue {m' : Machine} (turn : m.IssueTurn m') : Turn m m'
  | commit {m' : Machine} (turn : m.CommitTurn m') : Turn m m'

/-! ### Write result -/

/-- Every busy station has an operation, a tag and a slot in the window. -/
theorem exists_slot_of_busy (h : Coherent code m) {st : Station} (hi : m.stations.stations[i]? = some st)
    (hb : st.busy = true) : ∃ k s v op tag, m.Awaits k s v ∧ st.opcode = some op ∧ st.dest = some tag ∧
      s.tag = some tag ∧ m.rob.slotFor tag = some (m.rob.place k) := by
  obtain ⟨k, s, hk, hp, ht, s', instr, hk', -, hserves⟩ := h.staffed.serves i st hi hb
  obtain ⟨v, ha⟩ := h.awaits hk hp
  obtain ⟨tag, htag⟩ := Option.isSome_iff_exists.1 (h.tags.isSome ha.mem)
  exact ⟨k, s, v, instr.opcode, tag, ha, hserves.opcode, ht.symm.trans htag, htag, h.slotFor_eq hk htag⟩

theorem gives (h : Coherent code m) {st : Station} {s : Slot} {v : Instance} {op : Opcode} {tag : Tag}
    {computed : Word} (station : m.stations.stations[i]? = some st) (busy : st.busy = true)
    (last : st.remaining = 0) (awaits : m.Awaits k s v) (opcode : st.opcode = some op)
    (dest : st.dest = some tag) (named : s.tag = some tag)
    (slotFor : m.rob.slotFor tag = some (m.rob.place k)) (result : st.result = .ok computed)
    (delivered : { m with
        memory := (m.memory.access op computed (Station.operandValue st.right)).2 }.deliver i st.name
      (m.rob.place k) tag (m.memory.access op computed (Station.operandValue st.right)).1 s.instr =
        .ok m') :
    m.Gives i k st s v tag (m.memory.access op computed (Station.operandValue st.right)).1 m' := by
  have move := Move.compute station busy last opcode dest awaits.slot named awaits.occupant result delivered
  have shows : m.computation? i =
      some ⟨v.id, st, (m.memory.access op computed (Station.operandValue st.right)).1⟩ := by
    simp [computation?, station, busy, opcode, dest, slotFor, h.ring.getElem?_slots awaits.slot,
      awaits.occupant, result, Except.toOption]
  obtain ⟨w, memory, rob, physical, hid, computes, rfl⟩ :=
    h.computes station busy last opcode dest awaits.slot named awaits.occupant result delivered
  have hw : w = v := by
    have hc := computes.current
    rw [hid, awaits.current] at hc
    exact (Option.some.inj hc).symm
  subst hw
  exact { toAwaits := awaits, move, station, busy, last, dest, named, shows
          arrives := computes.arrives, window := computes.window, stations := rfl, fetch := rfl
          commits := rfl, counters := rfl }

/-- A branch that has just computed is still in its slot and may squash. -/
theorem Gives.clears (h : Coherent code m) {st : Station} {s : Slot} {v : Instance} {tag : Tag}
    {result : Word} (given : m.Gives i k st s v tag result m') {op : Opcode} (opcode : st.opcode = some op)
    (branch : op.isBranch = true) : m'.Clears v.id.position (m'.squashYounger v.id.position) := by
  have h' := h.move given.move
  obtain ⟨s', instr, hk, hinstr, hserves⟩ := (h.pending_of_busy given.station given.busy given.slot
    (given.named.trans given.dest.symm)).2
  obtain rfl := Option.some.inj (given.slot.symm.trans hk)
  obtain rfl := Option.some.inj (opcode.symm.trans hserves.opcode)
  have hs : s.holding m.cycle result ∈ m'.rob.window := by
    rw [given.window, List.mem_map]
    exact ⟨s, given.mem, if_pos given.occupant⟩
  have move : m'.Move [] (m'.squashYounger v.id.position) := .squash hs rfl given.occupant hinstr branch
  obtain ⟨w, rob, stations, events, aliases, hid, squashes, heq⟩ :=
    h'.squashes hs rfl given.occupant hinstr branch
  rw [heq] at move ⊢
  rw [← hid]
  exact { move, uncommitted := squashes.uncommitted, issued := squashes.issued, window := squashes.window
          stations := squashes.vacated, fetch := rfl, commits := rfl, counters := rfl }

theorem writeResult_turn (h : Coherent code m)
    (hdone : ∀ st, m.stations.stations[i]? = some st → st.busy = true → st.remaining = 0)
    (hm : m.writeResult i = .ok m') : m.WriteTurn i m' := by
  simp only [writeResult, bind_eq_ok_iff, guarded_eq_ok_iff] at hm
  obtain ⟨st, hst, hm⟩ := hm
  rw [StationTable.station, readAt_eq_ok_iff] at hst
  by_cases hb : st.busy = true
  case neg =>
    rw [Bool.not_eq_true] at hb
    simp only [hb] at hm
    obtain rfl := pure_eq_ok_iff.1 hm
    exact .idle (fun st' hst' => by rwa [← Option.some.inj (hst.symm.trans hst')])
      (by simp [computation?, hst, hb])
  case pos =>
    obtain ⟨k, s, v, op, tag, awaits, opcode, dest, named, slotFor⟩ := exists_slot_of_busy h hst hb
    simp only [hb, opcode, dest, slotFor, bind_eq_ok_iff, guarded_eq_ok_iff] at hm
    obtain ⟨slot, hread, hm⟩ := hm
    rw [ReorderBuffer.slot, readAt_eq_ok_iff, h.ring.getElem?_slots awaits.slot] at hread
    obtain rfl := Option.some.inj hread
    split at hm
    case h_1 => simp [throw, throwThe, MonadExceptOf.throw] at hm
    case h_2 computed hres =>
      simp only [bind_eq_ok_iff] at hm
      obtain ⟨middle, hdel, hm⟩ := hm
      have given := gives h hst hb (hdone st hst hb) awaits opcode dest named slotFor hres hdel
      split at hm
      · next branch htaken hbranch =>
        obtain rfl := pure_eq_ok_iff.1 hm
        obtain rfl := Option.some.inj (awaits.occupant.symm.trans hbranch)
        rw [Bool.and_eq_true] at htaken
        exact .clears given (given.clears h opcode htaken.1) (by rw [opcode]; exact htaken.1) htaken.2
      · obtain rfl := pure_eq_ok_iff.1 hm
        exact .gives given

/-! ### Execute -/

/-- The first cycle of an execution is noted, if it is this one, and the rest left alone. -/
structure Begins (m : Machine) (k : Nat) (v : Instance) (n : Machine) : Prop where
  place : n.rob.place k = m.rob.place k
  window : n.rob.window = m.rob.window.map (Slot.revise v.id (Slot.begun m.cycle))
  stations : n.stations = m.stations
  fetch : n.fetch = m.fetch
  commits : n.commits = m.commits
  counters : n.counters = m.counters

theorem startExecution_begins (h : Coherent code m) {s : Slot} {v : Instance} (awaits : m.Awaits k s v)
    (name : String) : m.Begins k v (m.startExecution name (m.rob.place k) s) := by
  have hbegun : ∀ g : Slot → Slot, s.begun m.cycle = g s →
      m.rob.window.map (Slot.revise v.id g) = m.rob.window.map (Slot.revise v.id (Slot.begun m.cycle)) := by
    intro g hg
    refine List.map_congr_left fun t ht => ?_
    unfold Slot.revise
    split
    · next ho => rw [h.slot_of_occupant ht awaits.mem (ho.trans awaits.occupant.symm), hg]
    · rfl
  rw [startExecution_eq]
  split
  · next hnone =>
    refine ⟨by simp [ReorderBuffer.place, ReorderBuffer.modify, ReorderBuffer.capacity], ?_, rfl, rfl, rfl, rfl⟩
    rw [← hbegun (Slot.started m.cycle) (by rw [Slot.begun, if_pos hnone])]
    exact h.ring.window_revise h.order.nodup awaits.slot awaits.occupant fun _ => rfl
  · next hsome =>
    refine ⟨rfl, ?_, rfl, rfl, rfl, rfl⟩
    rw [← hbegun id (by rw [Slot.begun, if_neg hsome]; rfl)]
    exact (List.map_id'' (fun t => by unfold Slot.revise; split <;> rfl) _).symm

theorem Slot.revise_revise {id : InstanceId} {g : Slot → Slot} (hg : ∀ t : Slot, (g t).occupant = t.occupant)
    (g' : Slot → Slot) (w : List Slot) :
    (w.map (Slot.revise id g)).map (Slot.revise id g') = w.map (Slot.revise id (g' ∘ g)) := by
  rw [List.map_map]
  refine List.map_congr_left fun t _ => ?_
  unfold Slot.revise
  by_cases ho : t.occupant = some id <;> simp [ho, hg]

theorem Begins.countdown {n : Machine} {st : Station} {s : Slot} {v : Instance} (begins : m.Begins k v n)
    (awaits : m.Awaits k s v) (move : m.Move [] n) (station : m.stations.stations[i]? = some st)
    (busy : st.busy = true) (ready : st.isReady = true) (named : s.tag = st.dest)
    (many : 1 < st.remaining) : m.Runs i k st s v (n.countdown i) where
  toAwaits := awaits
  moves := (Moves.single move).trans
    (.single (.countdown (by rw [begins.stations, station]) busy ready many))
  station := station
  ready := ready
  more := by omega
  named := named
  window := by
    have hran : Slot.ran m.cycle st.remaining = Slot.begun m.cycle := by
      funext t
      rw [Slot.ran, if_neg (by omega)]
    rw [hran]
    exact begins.window
  stations := by rw [Machine.countdown, Machine.countdown, begins.stations]
  fetch := by rw [if_neg (by omega)]; exact begins.fetch
  commits := begins.commits
  counters := by rw [if_neg (by omega)]; exact begins.counters

theorem Begins.complete {n : Machine} {st : Station} {s : Slot} {v : Instance} (h : Coherent code m)
    (begins : m.Begins k v n) (awaits : m.Awaits k s v) (move : m.Move [] n)
    (station : m.stations.stations[i]? = some st) (busy : st.busy = true) (ready : st.isReady = true)
    (named : s.tag = st.dest) (one : st.remaining = 1) (name : String) (shown : Slot) :
    m.Runs i k st s v ((n.countdown i).completeExecution name (m.rob.place k) shown) := by
  have hn := h.move move
  have hrole := Slot.begun_sameRole awaits.isLive m.cycle
  have occupant : (s.begun m.cycle).occupant = some v.id := hrole.occupant.trans awaits.occupant
  have hbegun : n.rob.window[k]? = some (s.begun m.cycle) := by
    rw [begins.window, List.getElem?_map, awaits.slot, Option.map_some, Slot.revise, if_pos awaits.occupant]
  have hcycle : n.cycle = m.cycle := congrArg Counters.cycles begins.counters
  have hran : Slot.ran m.cycle st.remaining = Slot.executed m.cycle ∘ Slot.begun m.cycle := by
    funext t
    rw [Slot.ran, if_pos one]
    rfl
  have last : n.stations.stations[i]? = some st := by rw [begins.stations, station]
  have hmove := Move.complete name shown last busy ready one hbegun (hrole.tag.trans named)
  have hwindow : (n.rob.modify (n.rob.place k) (Slot.executed n.cycle)).window =
      n.rob.window.map (Slot.revise v.id (Slot.executed n.cycle)) :=
    hn.ring.window_revise hn.order.nodup hbegun occupant fun _ => rfl
  have heq := completeExecution_eq (m := n.countdown i) (k := k) hn.ring hbegun occupant name shown
  change (n.countdown i).completeExecution name (n.rob.place k) shown = _ at heq
  rw [← begins.place]
  have moves := (Moves.single move).trans (.single hmove)
  rw [heq] at moves ⊢
  refine { toAwaits := awaits, moves, station, ready, more := by omega, named, window := ?_
           stations := by rw [Machine.countdown, Machine.countdown, begins.stations], fetch := ?_
           commits := begins.commits, counters := by rw [if_pos one, ← begins.counters]; rfl }
  · show (n.rob.modify (n.rob.place k) (Slot.executed n.cycle)).window = _
    rw [hwindow, begins.window, hcycle, hran, Slot.revise_revise]
    intro t
    unfold Slot.begun
    split <;> rfl
  · rw [if_pos one, hran, Function.comp_apply, ← hcycle, ← begins.fetch]
    rfl

theorem executeStation_turn (h : Coherent code m) (hm : m.executeStation i = .ok m') :
    m.ExecuteTurn i m' := by
  simp only [executeStation, bind_eq_ok_iff, guarded_eq_ok_iff] at hm
  obtain ⟨st, hst, hm⟩ := hm
  rw [StationTable.station, readAt_eq_ok_iff] at hst
  split at hm
  case isTrue hdone =>
    obtain rfl := pure_eq_ok_iff.1 hm
    exact .rests hst (by simpa using hdone)
  case isFalse hbusy =>
    obtain ⟨hb, more⟩ : st.busy = true ∧ st.remaining ≠ 0 := by simpa using hbusy
    split at hm
    case isTrue unready =>
      obtain rfl := pure_eq_ok_iff.1 hm
      exact .waits hst hb more (by simpa using unready)
    case isFalse hready =>
      have ready : st.isReady = true := by simpa using hready
      obtain ⟨k, s, v, -, tag, awaits, -, dest, named, slotFor⟩ := exists_slot_of_busy h hst hb
      have tagged := named.trans dest.symm
      simp only [dest, Option.bind_some, slotFor, bind_eq_ok_iff, guarded_eq_ok_iff] at hm
      obtain ⟨slot, hread, hm⟩ := hm
      rw [ReorderBuffer.slot, readAt_eq_ok_iff, h.ring.getElem?_slots awaits.slot] at hread
      obtain rfl := Option.some.inj hread
      have start : Move m [] (m.startExecution st.name (m.rob.place k) s) :=
        .start st.name hst hb awaits.slot tagged
      have begins := startExecution_begins h awaits st.name
      split at hm
      · next one =>
        obtain rfl := pure_eq_ok_iff.1 hm
        exact .runs (begins.complete h awaits start hst hb ready tagged one st.name s)
      · next many =>
        obtain rfl := pure_eq_ok_iff.1 hm
        exact .runs (begins.countdown awaits start hst hb ready tagged (by omega))

/-! ### Issue and commit -/

theorem issue_turn (h : Coherent code m) (hm : m.issue = .ok m') : m.IssueTurn m' := by
  unfold issue at hm
  split at hm
  case h_1 none =>
    obtain rfl := pure_eq_ok_iff.1 hm
    exact .ended none
  case h_2 v next =>
    split at hm
    case isTrue full =>
      obtain rfl := pure_eq_ok_iff.1 hm
      exact .stalls _ next (.inl (by simpa using full))
    case isFalse room =>
      split at hm
      case h_1 none =>
        obtain rfl := pure_eq_ok_iff.1 hm
        exact .stalls _ next (.inr (.inl none))
      case h_2 i station =>
        simp only [bind_eq_ok_iff, guarded_eq_ok_iff] at hm
        obtain ⟨⟨left, right⟩, operands, hm⟩ := hm
        split at hm
        case h_1 none =>
          obtain rfl := pure_eq_ok_iff.1 hm
          exact .stalls _ next (.inr (.inr none))
        case h_2 tag physical register =>
          have move := Move.issue next station operands register hm
          obtain ⟨st, rob, renamed, aliases, issues, rfl⟩ := h.issues next station operands register hm
          exact .enters
            { move, next, room := by simpa using room, station := issues.station
              unit := issues.serves.unit, idle := issues.idle, register := ⟨physical, register⟩
              window := issues.window, stations := rfl, fetch := rfl, commits := rfl, counters := rfl }

theorem commit_turn (h : Coherent code m) (hm : m.commit = .ok m') : m.CommitTurn m' := by
  simp only [commit, guarded_eq_ok_iff, bind_eq_ok_iff] at hm
  obtain ⟨s, hs, hm⟩ := hm
  rw [ReorderBuffer.slot, readAt_eq_ok_iff] at hs
  split at hm
  case isTrue hidle =>
    obtain rfl := pure_eq_ok_iff.1 hm
    have hb : s.busy = false := by simpa using hidle
    refine .empty ?_ (by simp [retiring?, hs, hb])
    cases hw : m.rob.window with
    | nil => rfl
    | cons t rest =>
      obtain ⟨ht, hbusy⟩ := h.ring.head_eq_some_iff.2 ⟨rest, hw⟩
      rw [← Option.some.inj (hs.symm.trans ht), hb] at hbusy
      simp at hbusy
  case isFalse hbusy =>
    have hb : s.busy = true := by simpa using hbusy
    obtain ⟨rest, head⟩ := h.ring.head_eq_some_iff.1 ⟨hs, hb⟩
    split at hm
    case isTrue hdead =>
      simp only [bind_eq_ok_iff, pure_eq_ok_iff] at hm
      obtain ⟨retired, hr, rfl⟩ := hm
      have dead : s.isLive = false := by simpa using hdead
      have move := Move.discard head dead hr
      obtain ⟨tag, rob, physical, retires, rfl⟩ := h.discards head hr
      have shows : m.retiring? = none := by simp [retiring?, hs, dead]
      exact .discards ⟨head, retires.window, rfl, rfl, Nat.le_refl _, fun _ _ => rfl⟩ move shows dead rfl rfl rfl
    case isFalse hlive =>
      have live : s.isLive = true := by simpa using hlive
      split at hm
      · next may =>
        have move := Move.commit head live may hm
        have shows : m.retiring? = some (s.result.getD 0.0) := by simp [retiring?, hs, hb, live, may]
        obtain ⟨v, tag, rob, physical, aliases, commits, rfl⟩ := h.commits head live may hm
        refine .commits ⟨head, commits.window, rfl, rfl, by simp, fun q hq => ?_⟩ move shows live may
          commits.occupant commits.current commits.position rfl rfl rfl
        have hne : q ≠ v.id.position := by
          rw [commits.position]
          simp only [Array.toList_push, List.length_append, List.length_singleton] at hq
          omega
        exact (Fetch.current?_modify h.order.orderly commits.current _ q).trans (if_neg hne)
      · next may =>
        obtain rfl := pure_eq_ok_iff.1 hm
        exact .early head live (by simpa using may) (by simp [retiring?, hs, may])

end Machine

end OutOfOrder
