import OutOfOrder.Proofs.CommitOrder
import OutOfOrder.Proofs.Occupancy

/-!
A run without a squash keeps the timetable of its program: cycle by cycle the machine does what is due, and
stalls as often as the timetable says.
-/

set_option autoImplicit false

namespace OutOfOrder

open Machine

variable {config : Config} {code : List Instruction} {t : Timetable} {m m' : Machine} {c : Nat}

/-! ### What the turns count -/

namespace Machine

theorem WriteTurn.counters {i : Nat} (turn : m.WriteTurn i m') :
    m'.counters.stalls = m.counters.stalls ∧ m.counters.squashed ≤ m'.counters.squashed := by
  cases turn with
  | idle => exact ⟨rfl, Nat.le_refl _⟩
  | gives given =>
    rw [given.counters]
    exact ⟨rfl, Nat.le_refl _⟩
  | clears given cleared =>
    rw [cleared.counters, given.counters]
    exact ⟨rfl, Nat.le_add_right _ _⟩

/-- A station that waits counts a stall. -/
theorem ExecuteTurn.counters {i : Nat} (turn : m.ExecuteTurn i m') (hcoh : Coherent code m) :
    m'.counters.squashed = m.counters.squashed ∧ m'.counters.stalls = m.counters.stalls +
      if m.stations.stations[i]?.any (fun st => st.busy && !st.isReady) = true then 1 else 0 := by
  cases turn with
  | @rests st station done =>
    have hnot : (st.busy && !st.isReady) = false := by
      cases hb : st.busy with
      | false => rfl
      | true =>
        have hz := done.resolve_left (by simp [hb])
        rw [hcoh.staffed.finished i st station hb hz]
        rfl
    rw [station, Option.any_some, hnot]
    exact ⟨rfl, rfl⟩
  | waits station busy _ unready =>
    rw [station, Option.any_some, busy, unready]
    exact ⟨rfl, rfl⟩
  | runs ran =>
    rw [ran.station, Option.any_some, ran.ready, ran.counters, Bool.not_true, Bool.and_false]
    exact ⟨rfl, rfl⟩

theorem IssueTurn.squashed_eq (turn : m.IssueTurn m') : m'.counters.squashed = m.counters.squashed := by
  cases turn with
  | ended | stalls => rfl
  | enters entered => rw [entered.counters]

theorem execute_squashed (hcoh : Coherent code m) (hm : m.execute = .ok m') :
    m'.counters.squashed = m.counters.squashed :=
  execute_keeps (fun _ n => n.counters.squashed = m.counters.squashed)
    (fun _ _ _ _ hn _ hsame turn => (turn.counters hn).1.trans hsame) hcoh rfl hm

/-- The second phase counts one stall for every station that waits when it begins. -/
theorem execute_stalls (hcoh : Coherent code m) (hm : m.execute = .ok m') : m'.counters.stalls =
    m.counters.stalls + (m.stations.places fun st => st.busy && !st.isReady).card := by
  let waits : Nat → Bool := fun j => m.stations.stations[j]?.any fun st => st.busy && !st.isReady
  -- the stalls of the stations in `rest` are still to be counted
  have hphase := execute_keeps (fun rest n =>
    (∀ j ∈ rest, n.stations.stations[j]? = m.stations.stations[j]?) ∧
    n.counters.stalls + rest.countP waits =
      m.counters.stalls + (List.range m.stations.size).countP waits) ?_ hcoh ⟨fun _ _ => rfl, rfl⟩ hm
  · rw [StationTable.card_places]
    exact hphase.2
  · intro i rest n n' hn hi ⟨hstations, hstalls⟩ turn
    obtain ⟨-, hstalls'⟩ := turn.counters hn
    refine ⟨fun j hj => ?_, ?_⟩
    · rw [turn.others fun he => hi (he ▸ hj)]
      exact hstations j (List.mem_cons_of_mem i hj)
    · rw [hstations i (List.mem_cons_self ..)] at hstalls'
      rw [List.countP_cons] at hstalls
      change n'.counters.stalls = n.counters.stalls + if waits i = true then 1 else 0 at hstalls'
      omega

theorem CommitTurn.counters (turn : m.CommitTurn m') :
    m'.counters.stalls = m.counters.stalls ∧ m'.counters.squashed = m.counters.squashed := by
  cases turn with
  | empty | early => exact ⟨rfl, rfl⟩
  | commits _ _ _ _ _ _ _ _ _ _ counters | discards _ _ _ _ _ _ counters =>
    rw [counters]
    exact ⟨rfl, rfl⟩

end Machine

namespace OnSchedule

variable {write issue commit : Nat} {run : Nat → Nat}

/-! ### Issue -/

/-- The instruction at the cursor is due when there is a slot, a station and a register for it. -/
theorem issue_eq_iff (h : OnSchedule code t m.cycle (fun _ => m.cycle) c c m) (ht : t.Solves config code)
    (hcoh : Coherent code m) (he : m.Equipped config) (hcycle : m.cycle = c + 1) {v : Instance}
    (next : m.fetch.next? = some v) : (t m.fetch.pc).issue = m.cycle ↔ m.rob.hasRoom = true ∧
      m.stations.idleIn v.instr.opcode.unit ≠ none ∧ m.physical.allocate ≠ none := by
  have hobeys := ht _ _ (hcoh.order.orderly.instr_current next)
  have hlate := h.lt_issue (hcoh.order.orderly.lt_length next)
  rw [← h.admits_iff ht hcoh he hcycle v.instr]
  constructor
  · intro heq
    rw [← heq]
    exact hobeys.issue.1
  · intro ha
    have hle := hobeys.issue.2 ha
    omega

theorem enters (h : OnSchedule code t (c + 1) (fun _ => c + 1) c c m) (ht : t.Solves config code)
    (hcoh : Coherent code m) (hcycle : m.cycle = c + 1) {v : Instance} {i : Nat} {st : Station}
    {left : Operand} {right : Option Operand} {tag : Tag} (entered : m.Enters v i st left right tag m')
    (hdue : (t m.fetch.pc).issue = c + 1) :
    OnSchedule code t (c + 1) (fun _ => c + 1) (c + 1) c m' := by
  have hposition : v.id.position = m.fetch.pc := hcoh.order.orderly.position_current entered.next
  have hcurrent : m.fetch.current? v.id.position = some v := hposition ▸ entered.next
  have hpc : m'.fetch.pc = m.fetch.pc + 1 := by
    rw [entered.fetch]
    rfl
  refine
    { live := ?_, issue_le := fun p hp => ?_, lt_issue := fun hlt => ?_
      commit_le := entered.commits ▸ h.commit_le, lt_commit := entered.commits ▸ h.lt_commit
      recorded := ?_, written := ?_, working := fun j st' l u w hm => ?_ }
  · rw [entered.window]
    intro u hu
    rcases List.mem_append.1 hu with hu | hu
    · exact h.live u hu
    · rw [List.mem_singleton.1 hu]
      rfl
  · rw [hpc] at hp
    rcases Nat.lt_succ_iff_lt_or_eq.1 hp with hlt | rfl
    · exact Nat.le_succ_of_le (h.issue_le p hlt)
    · exact Nat.le_of_eq hdue
  · rw [hpc] at hlt ⊢
    rw [← hdue]
    exact ht.issue_lt_issue (Nat.lt_succ_self _) hlt
  · rw [entered.commits]
    intro p hp
    have hle := hcoh.order.commits_le
    obtain ⟨w, hw, htimes⟩ := h.recorded p hp
    refine ⟨w, ?_, htimes⟩
    rw [entered.fetch]
    exact (Fetch.current?_modify hcoh.order.orderly hcurrent _ p).trans ((if_neg (by omega)).trans hw)
  · rw [entered.move.steady.cycle]
    exact fun u hu hr => h.written u (entered.mem_of_ready hu hr) hr
  · rcases Mans.of_enters hcoh entered hm with ⟨-, -, rfl, rfl, rfl⟩ | ⟨-, -, hbefore⟩
    · have hobeys := ht _ _ (hcoh.order.orderly.instr_current hcurrent)
      have hexecute := hobeys.issue_lt_execute
      have hwrite := hobeys.write
      rw [← hposition] at hdue
      refine ⟨?_, ?_, ?_⟩
      · show { Times.none with issue := some m.cycle } = (t v.id.position).upTo (c + 1)
        rw [hcycle, ← hdue, hobeys.upTo_issue]
      · show v.instr.opcode.latency = min v.instr.opcode.latency ((t v.id.position).write - (c + 1 + 1))
        omega
      · show c + 1 < (t v.id.position).write
        omega
    · exact h.working j st' l u w hbefore

/-- Of the positions only the one at the cursor may wait for its turn to end. -/
theorem stalling_iff (h : OnSchedule code t (c + 1) (fun _ => c + 1) c c m) (ht : t.Solves config code)
    {p : Nat} (hp : p < code.length) :
    preceding (fun q => (t q).issue) p < c + 1 ∧ c + 1 < (t p).issue ↔
      p = m.fetch.pc ∧ c + 1 < (t m.fetch.pc).issue := by
  rcases Nat.lt_trichotomy p m.fetch.pc with hlt | rfl | hgt
  · have hle := h.issue_le p hlt
    omega
  · refine and_congr_left fun _ => iff_of_true ?_ rfl
    cases hpc : m.fetch.pc with
    | zero => exact Nat.succ_pos c
    | succ p =>
      have hle := h.issue_le p (by omega)
      exact Nat.lt_succ_of_le hle
  -- behind the cursor it is not even the turn of `p`
  · obtain ⟨q, rfl⟩ := Nat.exists_eq_add_one_of_ne_zero (show p ≠ 0 by omega)
    have hlate := h.lt_issue (by omega)
    have hle : (t m.fetch.pc).issue ≤ (t q).issue := by
      rcases Nat.eq_or_lt_of_le (Nat.le_of_lt_succ hgt) with heq | hlt
      · rw [heq]
      · exact Nat.le_of_lt (ht.issue_lt_issue hlt (by omega))
    refine iff_of_false (fun ⟨hturn, _⟩ => ?_) fun ⟨heq, _⟩ => absurd heq (by omega)
    change (t q).issue < c + 1 at hturn
    omega

theorem card_stalling (h : OnSchedule code t (c + 1) (fun _ => c + 1) c c m) (ht : t.Solves config code) :
    ((Finset.range code.length).filter fun p =>
      preceding (fun q => (t q).issue) p < c + 1 ∧ c + 1 < (t p).issue).card =
        if m.fetch.pc < code.length ∧ c + 1 < (t m.fetch.pc).issue then 1 else 0 := by
  have hiff : ∀ p ∈ Finset.range code.length, _ := fun p hp => h.stalling_iff ht (Finset.mem_range.1 hp)
  rw [Finset.filter_congr hiff]
  split
  · next hlate =>
    rw [Finset.card_eq_one]
    refine ⟨m.fetch.pc, Finset.ext fun p => ?_⟩
    rw [Finset.mem_filter, Finset.mem_range, Finset.mem_singleton]
    exact ⟨fun hp => hp.2.1, fun heq => ⟨heq ▸ hlate.1, heq, hlate.2⟩⟩
  · next hnone =>
    rw [Finset.card_eq_zero, Finset.filter_eq_empty_iff]
    rintro p hp ⟨rfl, hlate⟩
    exact hnone ⟨Finset.mem_range.1 hp, hlate⟩

theorem issueTurn (h : OnSchedule code t (c + 1) (fun _ => c + 1) c c m) (ht : t.Solves config code)
    (hcoh : Coherent code m) (he : m.Equipped config) (hcycle : m.cycle = c + 1) (turn : m.IssueTurn m') :
    OnSchedule code t (c + 1) (fun _ => c + 1) (c + 1) c m' ∧
      m'.counters.stalls = m.counters.stalls + ((Finset.range code.length).filter fun p =>
        preceding (fun q => (t q).issue) p < c + 1 ∧ c + 1 < (t p).issue).card := by
  have hissue : ∀ p < m.fetch.pc, (t p).issue ≤ c + 1 := fun p hp => Nat.le_succ_of_le (h.issue_le p hp)
  have hdue : ∀ v, m.fetch.next? = some v → ((t m.fetch.pc).issue = c + 1 ↔ m.rob.hasRoom = true ∧
      m.stations.idleIn v.instr.opcode.unit ≠ none ∧ m.physical.allocate ≠ none) := fun v next =>
    hcycle ▸ issue_eq_iff (hcycle.symm ▸ h) ht hcoh he hcycle next
  rw [h.card_stalling ht]
  cases turn with
  | ended none =>
    have hend : ¬m.fetch.pc < code.length := by
      intro hlt
      obtain ⟨v, hv⟩ := hcoh.order.orderly.exists_current hlt
      exact absurd (none.symm.trans hv) (by simp)
    rw [if_neg fun hlate => hend hlate.1]
    exact ⟨{ h with issue_le := hissue, lt_issue := fun hlt => absurd hlt hend }, rfl⟩
  | @stalls v shortage next lack =>
    have hlt := hcoh.order.orderly.lt_length next
    have hlate : c + 1 < (t m.fetch.pc).issue := by
      have hnot : (t m.fetch.pc).issue ≠ c + 1 := by
        rw [Ne, hdue v next]
        rintro ⟨hslot, hstation, hregister⟩
        rcases lack with full | unavailable | empty
        · simp [hslot] at full
        · exact hstation unavailable
        · exact hregister empty
      have hle := h.lt_issue hlt
      omega
    rw [if_pos ⟨hlt, hlate⟩]
    exact ⟨of_alike (m := m) { h with issue_le := hissue, lt_issue := fun _ => hlate }
      ⟨rfl, fun _ => rfl, rfl, fun _ => rfl, rfl⟩ (Nat.le_refl _), rfl⟩
  | @enters v i st left right tag m' entered =>
    obtain ⟨allocated, register⟩ := entered.register
    have hnow : (t m.fetch.pc).issue = c + 1 := by
      refine (hdue v entered.next).2 ⟨entered.room, ?_, by rw [register]; simp⟩
      exact StationTable.idleIn_ne_none entered.station entered.unit entered.idle
    rw [if_neg (by omega), entered.counters]
    exact ⟨h.enters ht hcoh hcycle entered hnow, rfl⟩

/-! ### Commit -/

/-- The head may commit when it is due. -/
theorem mayCommit_iff (h : OnSchedule code t (c + 1) (fun _ => c + 1) (c + 1) c m) (ht : t.Solves config code)
    (hcoh : Coherent code m) (hcycle : m.cycle = c + 1) {s : Slot} {rest : List Slot}
    (head : m.rob.window = s :: rest) :
    m.mayCommit s = true ↔ (t m.commits.toList.length).commit = c + 1 := by
  have hs : m.rob.window[0]? = some s := by
    rw [head]
    rfl
  have hmem := List.mem_of_getElem? hs
  obtain ⟨id, ho, hposition, hlt⟩ := hcoh.position_of_place h.live hs
  rw [Nat.add_zero] at hposition
  have hpc := hcoh.order.pc_le
  have hlate := h.lt_commit (by omega)
  obtain ⟨i, hobeys⟩ := ht.obeys (show m.commits.toList.length < code.length by omega)
  have hcommit := hobeys.commit
  cases hready : s.ready with
  | true =>
    obtain ⟨htimes, hwrite⟩ := h.written s hmem hready id ho
    rw [hposition] at htimes hwrite
    have hprevious : preceding (fun q => (t q).commit) m.commits.toList.length ≤ c := by
      cases hk : m.commits.toList.length with
      | zero => exact Nat.zero_le c
      | succ k => exact h.commit_le k (by omega)
    have hmay : m.mayCommit s = true ↔ (t m.commits.toList.length).write < c + 1 := by
      simp [mayCommit, hready, htimes, Entry.written, hcycle]
    rw [hmay]
    omega
  | false =>
    obtain ⟨v, awaits⟩ := hcoh.awaits hs (Slot.isPending_eq_true.2 ⟨h.live s hmem, hready⟩)
    obtain ⟨j, st, hm⟩ := exists_mans_of_awaits hcoh awaits
    obtain rfl := Option.some.inj (ho.symm.trans awaits.occupant)
    have hwrite := (h.working j st 0 s v hm).2.2
    rw [hposition] at hwrite
    refine iff_of_false (by simp [mayCommit, hready]) ?_
    omega

theorem commits (h : OnSchedule code t (c + 1) (fun _ => c + 1) (c + 1) c m) (ht : t.Solves config code)
    (hcoh : Coherent code m) (hcycle : m.cycle = c + 1) {s : Slot} {rest : List Slot} {v : Instance}
    {d : List Deed} (left : m.Leaves s rest m') (move : m.Move d m') (ready : s.ready = true)
    (occupant : s.occupant = some v.id) (current : m.fetch.current? v.id.position = some v)
    (position : v.id.position = m.commits.toList.length)
    (fetch : m'.fetch = m.fetch.modify v.id (Sequenced.moved .committed (s.completed m.cycle).times))
    (commits : m'.commits = m.commits.push v.id) (hdue : (t m.commits.toList.length).commit = c + 1) :
    OnSchedule code t (c + 1) (fun _ => c + 1) (c + 1) (c + 1) m' := by
  have hcount : m'.commits.toList.length = m.commits.toList.length + 1 := by
    rw [commits, Array.toList_push, List.length_append, List.length_singleton]
  have hs := left.mem_head
  refine
    { live := fun u hu => h.live u (left.mem hu), issue_le := left.pc ▸ h.issue_le
      lt_issue := left.pc ▸ h.lt_issue, commit_le := fun p hp => ?_, lt_commit := fun hlt => ?_
      recorded := fun p hp => ?_
      written := fun u hu hr id ho => move.steady.cycle ▸ h.written u (left.mem hu) hr id ho
      working := fun j st' l u w hm => h.working j st' (l + 1) u w (hm.of_leaves left) }
  · rcases Nat.lt_succ_iff_lt_or_eq.1 (hcount ▸ hp) with hlt | rfl
    · exact Nat.le_succ_of_le (h.commit_le p hlt)
    · exact Nat.le_of_eq hdue
  · rw [hcount] at hlt ⊢
    rw [← hdue]
    exact ht.commit_lt_commit (Nat.lt_succ_self _) hlt
  · rw [fetch, Fetch.current?_modify hcoh.order.orderly current]
    split
    · next heq =>
      refine ⟨_, rfl, ?_⟩
      show { s.times with commit := some m.cycle } = _
      rw [(h.written s hs ready v.id occupant).1, hcycle, heq, Entry.times, ← hdue, ← position]
      rfl
    · exact h.recorded p (by omega)

theorem commitTurn (h : OnSchedule code t (c + 1) (fun _ => c + 1) (c + 1) c m) (ht : t.Solves config code)
    (hcoh : Coherent code m) (hcycle : m.cycle = c + 1) (turn : m.CommitTurn m') :
    OnSchedule code t (c + 1) (fun _ => c + 1) (c + 1) (c + 1) m' := by
  have hcommit : ∀ p < m.commits.toList.length, (t p).commit ≤ c + 1 := fun p hp =>
    Nat.le_succ_of_le (h.commit_le p hp)
  cases turn with
  | empty window =>
    refine { h with commit_le := hcommit, lt_commit := fun hlt => ?_ }
    have hlength := hcoh.length_window h.live
    have hle := hcoh.order.commits_le
    rw [window, List.length_nil] at hlength
    have hpc : m.fetch.pc = m.commits.toList.length := by omega
    have hlate := h.lt_issue (hpc ▸ hlt)
    rw [hpc] at hlate
    obtain ⟨i, hobeys⟩ := ht.obeys hlt
    have hexecute := hobeys.issue_lt_execute
    have hlast := hobeys.execute_lt_commit
    omega
  | early head live may =>
    refine { h with commit_le := hcommit, lt_commit := fun hlt => ?_ }
    have hdue := h.mayCommit_iff ht hcoh hcycle head
    have hlate := h.lt_commit hlt
    rw [may] at hdue
    simp only [Bool.false_eq_true, false_iff] at hdue
    omega
  | commits left move _ _ may occupant current position fetch commits =>
    have hdue := (h.mayCommit_iff ht hcoh hcycle left.head).1 may
    have ready := (Bool.and_eq_true_iff.1 may).1
    exact h.commits ht hcoh hcycle left move ready occupant current position fetch commits hdue
  | @discards s rest _ left _ _ dead =>
    have hs := left.mem_head
    rw [h.live s hs] at dead
    simp at dead

/-! ### Whole phases -/

theorem of_run (h : OnSchedule code t write run issue commit m) {run' : Nat → Nat}
    (hrun : ∀ (i : Nat) (st : Station), m.stations.stations[i]? = some st → run' i = run i) :
    OnSchedule code t write run' issue commit m :=
  { h with working := fun i st k s v hm => hrun i st hm.station ▸ h.working i st k s v hm }

theorem writeResults (h : OnSchedule code t c (fun _ => c) issue commit m) (ht : t.Solves config code)
    (hcoh : Coherent code m) (hcycle : m.cycle = c + 1) (hm : m.writeResults = .ok m')
    (hnone : m'.counters.squashed = m.counters.squashed) :
    OnSchedule code t (c + 1) (fun _ => c) issue commit m' ∧ m'.counters.stalls = m.counters.stalls := by
  -- a squash later in the phase would show in the count, so there is none so far
  have hphase := writeResults_keeps
    (fun _ n => n.cycle = c + 1 ∧ n.counters.stalls = m.counters.stalls ∧
      m.counters.squashed ≤ n.counters.squashed ∧ (n.counters.squashed = m.counters.squashed →
        OnSchedule code t c (fun _ => c) issue commit n)) ?_ hcoh
    ⟨hcycle, rfl, Nat.le_refl _, fun _ => h⟩ hm
  · obtain ⟨-, hstalls, -, hkept⟩ := hphase
    have hend := hkept hnone
    refine ⟨{ hend with working := fun i st k s v hmans => ?_ }, hstalls⟩
    obtain ⟨htimes, hremaining, hlt⟩ := hend.working i st k s v hmans
    have hmore := writeResults_leaves hcoh hm hmans.station hmans.busy
    exact ⟨htimes, hremaining, by omega⟩
  · intro i rest n n' hn ⟨hc, hstalls, hle, hkept⟩ turn
    have hcounters := turn.counters
    refine ⟨turn.moves.steady.cycle.trans hc, hcounters.1.trans hstalls, by omega, fun heq => ?_⟩
    exact (hkept (by omega)).writeTurn ht hn hc turn (by omega)

theorem card_waiting (h : OnSchedule code t (c + 1) run c c m) (ht : t.Solves config code)
    (hcoh : Coherent code m) (hcycle : m.cycle = c + 1) :
    (m.stations.places fun st => st.busy && !st.isReady).card =
      ((Finset.range code.length).filter fun p => (t p).issue < c + 1 ∧ c + 1 < (t p).execute).card := by
  have hready : ∀ i st k s v, m.Mans i st k s v →
      (st.isReady = true ↔ (t v.id.position).execute ≤ c + 1) := fun i st k s v hm =>
    hcycle ▸ isReady_iff (hcycle.symm ▸ h) ht hcoh (by omega) (by omega) hm
  refine card_places_eq hcoh (fun i st k s v hm => ?_) fun q hq => ?_
  · have hlt := hcoh.order.orderly.lt_length hm.current
    have hissue := h.issue_le _ hm.issued
    rw [Finset.mem_filter, Finset.mem_range, Bool.not_eq_true', ← Bool.not_eq_true, hready i st k s v hm]
    omega
  · obtain ⟨hlt, hissue, hlate⟩ := Finset.mem_filter.1 hq
    rw [Finset.mem_range] at hlt
    obtain ⟨i, hobeys⟩ := ht.obeys hlt
    have hwrite := hobeys.execute_lt_write
    have hpc : q < m.fetch.pc := by
      by_contra hle
      have hnext := h.lt_issue (by omega)
      rcases Nat.eq_or_lt_of_le (Nat.not_lt.1 hle) with heq | hgt
      · rw [heq] at hnext
        omega
      · have hgrows := ht.issue_lt_issue hgt hlt
        omega
    exact h.exists_mans ht hcoh (by omega) hpc (by omega)

theorem execute (h : OnSchedule code t (c + 1) (fun _ => c) c c m) (ht : t.Solves config code)
    (hcoh : Coherent code m) (hcycle : m.cycle = c + 1) (hm : m.execute = .ok m') :
    OnSchedule code t (c + 1) (fun _ => c + 1) c c m' ∧
      m'.counters.stalls = m.counters.stalls + ((Finset.range code.length).filter fun p =>
        (t p).issue < c + 1 ∧ c + 1 < (t p).execute).card := by
  refine ⟨?_, by rw [execute_stalls hcoh hm, h.card_waiting ht hcoh hcycle]⟩
  -- the stations in `rest` are a cycle behind the others
  have hphase := execute_keeps (fun rest n =>
    OnSchedule code t (c + 1) (fun j => if j ∈ rest then c else c + 1) c c n ∧ n.cycle = c + 1) ?_ hcoh
    ⟨h.of_run fun i st hi => ?_, hcycle⟩ hm
  · exact hphase.1.of_run fun i _ _ => (if_neg List.not_mem_nil).symm
  · intro i rest n n' hn hi ⟨hkept, hc⟩ turn
    refine ⟨hkept.executeTurn ht hn hc (Nat.le_refl _) (Nat.le_refl _) turn (if_pos (List.mem_cons_self ..))
      (if_neg hi) fun j hj => ?_, turn.moves.steady.cycle.trans hc⟩
    simp only [List.mem_cons, hj, false_or]
  · have hlt : i < m.stations.size := (Array.getElem?_eq_some_iff.1 hi).1
    exact if_pos (List.mem_range.2 hlt)

end OnSchedule

/-- Between two cycles: everything that is due has happened, and as many stalls. -/
structure UpToDate (code : List Instruction) (t : Timetable) (m : Machine) : Prop where
  onSchedule : OnSchedule code t m.cycle (fun _ => m.cycle) m.cycle m.cycle m
  stalls : m.counters.stalls = t.stallsUntil code.length m.cycle

namespace UpToDate

theorem of_core (h : UpToDate code t m) (hs : SameCore m m') (hc : m'.counters = m.counters) :
    UpToDate code t m' := by
  have hcycle : m'.cycle = m.cycle := by rw [cycle, cycle, hc]
  exact ⟨hcycle ▸ h.onSchedule.of_alike hs.alike (Nat.le_of_eq hcycle.symm), by rw [hc, hcycle, h.stalls]⟩

/-- When all has committed, all the stalls are counted. -/
theorem stalls_eq (h : UpToDate code t m) (ht : t.Solves config code)
    (hcount : m.commits.toList.length = code.length) : m.counters.stalls = t.stalls code.length := by
  rw [h.stalls]
  refine Timetable.stallsUntil_eq_stalls fun p hp => ?_
  obtain ⟨i, hobeys⟩ := ht.obeys hp
  have hcommit := h.onSchedule.commit_le p (hcount.symm ▸ hp)
  have hexecute := hobeys.issue_lt_execute
  have hlast := hobeys.execute_lt_commit
  omega

/-- The last commit ends the run. -/
theorem finishedAt_eq (h : UpToDate code t m) (hcoh : Coherent code m) (hf : Finished code m)
    (hcomplete : m.isComplete = true) :
    m.finishedAt = some (preceding (fun p => (t p).commit) code.length) := by
  obtain ⟨total, htotal⟩ := Option.isSome_iff_exists.1 hcomplete
  rw [htotal]
  rcases hf.time total htotal with ⟨rfl, rfl⟩ | ⟨v, hv, hcommit⟩
  · rfl
  · have hlt := hcoh.order.orderly.lt_length hv
    obtain ⟨n, hn⟩ := Nat.exists_eq_add_one_of_ne_zero (show code.length ≠ 0 by omega)
    obtain ⟨w, hw, htimes⟩ := h.onSchedule.recorded n (by rw [hf.complete_iff.1 hcomplete]; omega)
    rw [hn, Nat.add_sub_cancel, hw] at hv
    obtain rfl := Option.some.inj hv
    rw [htimes] at hcommit
    rw [hn]
    exact hcommit.symm

/-- A cycle without a squash. -/
theorem cycle (h : UpToDate code t m) (ht : t.Solves config code) (hcoh : Coherent code m)
    (he : m.Equipped config) (hm : m.runCycle = .ok m')
    (hnone : m'.counters.squashed = m.counters.squashed) : UpToDate code t m' := by
  obtain ⟨written, executed, issued, last, hw, hwritten, hx, hexecuted, -, hit, hissued, -, hct, -, rfl⟩ :=
    runCycle_phases hcoh hm
  have hmoves := (writeResults_moves hcoh.tick hw).trans (execute_moves hwritten hx)
  have hcw : written.cycle = m.cycle + 1 := (writeResults_steady hw).cycle
  have hcx : executed.cycle = m.cycle + 1 := hmoves.steady.cycle
  have hci : issued.cycle = m.cycle + 1 := hit.moves.steady.cycle.trans hcx
  have hcl : last.cycle = m.cycle + 1 := hct.moves.steady.cycle.trans hci
  have hsquashed : written.counters.squashed = m.counters.squashed := by
    rw [counters_settle, hct.counters.2, hit.squashed_eq, execute_squashed hwritten hx] at hnone
    exact hnone
  obtain ⟨hsw, hstalls⟩ := (h.onSchedule.of_alike m.sameCore_tick.alike (Nat.le_succ _)).writeResults ht
    hcoh.tick rfl hw hsquashed
  obtain ⟨hsx, hstallsx⟩ := hsw.execute ht hwritten hcw hx
  have het : m.tick.Equipped config := ⟨he.slots, he.registers, he.stations⟩
  obtain ⟨hsi, hstallsi⟩ := hsx.issueTurn ht hexecuted (het.moves hcoh.tick hmoves) hcx hit
  have hsl := hsi.commitTurn ht hissued hci hct
  refine of_core ⟨hcl.symm ▸ hsl, ?_⟩ last.sameCore_settle last.counters_settle
  rw [hct.counters.1, hstallsi, hstallsx, hstalls, hcl, Timetable.stallsUntil_succ, ← h.stalls]
  rfl

end UpToDate

/-! ### Whole runs -/

theorem Machine.upToDate_of_initial (hc : config.Admitted) (ht : t.Solves config code)
    (h : Machine.initial config code = .ok m) : UpToDate code t m := by
  have hfresh := fresh_of_initial hc h
  have hcycle := hfresh.cycle_eq
  have hpc := hfresh.pc_eq
  have hcount := hfresh.length_commits
  have hempty : ∀ u, u ∉ m.rob.window := by simp [hfresh.window]
  refine ⟨?_, by rw [hfresh.counters, hcycle, Timetable.stallsUntil_zero]; rfl⟩
  rw [hcycle]
  refine
    { live := fun u hu => absurd hu (hempty u), issue_le := by simp [hpc], lt_issue := fun hlt => ?_
      commit_le := by simp [hcount], lt_commit := fun hlt => ?_, recorded := by simp [hcount]
      written := fun u hu => absurd hu (hempty u)
      working := fun i st k u v hm => absurd hm.mem (hempty u) }
  · obtain ⟨i, hobeys⟩ := ht.obeys hlt
    rw [hpc] at hobeys ⊢
    exact hobeys.preceding_lt_issue
  · obtain ⟨i, hobeys⟩ := ht.obeys hlt
    rw [hcount] at hobeys ⊢
    exact hobeys.preceding_lt_commit

/-- The squashes are counted and never forgotten. -/
theorem Machine.squashed_le (hcoh : Coherent code m) (hm : m.runCycle = .ok m') :
    m.counters.squashed ≤ m'.counters.squashed := by
  have hcycle := runCycle_keeps (fun n => m.counters.squashed ≤ n.counters.squashed) ?_ hcoh
    (Nat.le_refl _) hm
  · obtain ⟨last, hle, rfl⟩ := hcycle
    rwa [counters_settle]
  · intro n n' hn hle turn
    cases turn with
    | write turn => exact Nat.le_trans hle turn.counters.2
    | execute turn => rwa [(turn.counters hn).1]
    | issue turn => rwa [turn.squashed_eq]
    | commit turn => rwa [turn.counters.2]

namespace Session.Reached

variable {trace : List Deed} {s : Session}

theorem upToDate (hc : config.Admitted) (ht : t.Solves config code) (h : Reached config code trace s)
    (hnone : s.machine.counters.squashed = 0) : UpToDate code t s.machine := by
  induction h with
  | load hconfig hload =>
    obtain ⟨-, m, hm, he⟩ := load_eq hconfig hload
    rw [he]
    exact (Machine.upToDate_of_initial hc ht hm).of_core m.sameCore_drained rfl
  | @step trace s s' earlier hstep ih =>
    rcases step_eq hstep with ⟨-, rfl⟩ | ⟨-, m, hm, he⟩
    · exact ih hnone
    · rw [he] at hnone ⊢
      change m.counters.squashed = 0 at hnone
      have hle := Machine.squashed_le (earlier.coherent hc) hm
      refine ((ih (by omega)).cycle ht (earlier.coherent hc) (earlier.equipped hc) hm (by omega)).of_core
        m.sameCore_drained rfl

/-- Whatever was issued found a station of its unit. -/
theorem staffed_units (hc : config.Admitted) (h : Reached config code trace s) :
    ∀ p < s.machine.fetch.pc, ∀ i, code[p]? = some i → 1 ≤ config.stations i.opcode.unit := by
  refine (h.keeps_turns hc (fun m => m.Equipped config ∧
    ∀ p < m.fetch.pc, ∀ i, code[p]? = some i → 1 ≤ config.stations i.opcode.unit) ?_ ?_ ?_).2
  · intro m hm
    refine ⟨Machine.equipped_of_initial hc hm, fun p hp => ?_⟩
    rw [(Machine.fresh_of_initial hc hm).pc_eq] at hp
    exact absurd hp (Nat.not_lt_zero p)
  · exact fun m m' hs ⟨he, hp⟩ => ⟨he.of_core hs, hs.fetch ▸ hp⟩
  · intro m m' hcoh ⟨he, hp⟩ turn
    obtain ⟨ds, hmoves⟩ := turn.moves
    refine ⟨he.moves hcoh hmoves, fun p hlt i hi => ?_⟩
    rcases turn.pc_le_or_enters hcoh with hle | ⟨v, j, st, left, right, tag, entered⟩
    · exact hp p (Nat.lt_of_lt_of_le hlt hle) i hi
    · rw [entered.fetch] at hlt
      rcases Nat.lt_succ_iff_lt_or_eq.1 hlt with hlt | heq
      · exact hp p hlt i hi
      · have hinstr := hcoh.order.orderly.instr_current entered.next
        change p = m.fetch.pc at heq
        rw [← heq, hi, Option.some.injEq] at hinstr
        rw [hinstr, ← he.stations, List.one_le_count_iff]
        exact StationTable.mem_units.2 ⟨j, st, entered.station, entered.unit⟩

end Session.Reached

/-- The cycles of a run without a squash are those of the one timetable that the program has. -/
theorem run_keeps_timetable {trace : List Deed} {s : Session} (hc : config.Admitted)
    (h : Session.Reached config code trace s) (hcomplete : s.isComplete = true)
    (hnone : s.machine.counters.squashed = 0) : ∃ t : Timetable, t.Solves config code ∧
      (∀ t' : Timetable, t'.Solves config code → ∀ p < code.length, t' p = t p) ∧
      (∀ p < code.length, ∃ v, s.machine.fetch.current? p = some v ∧ v.times = (t p).times) ∧
      s.machine.finishedAt = some (preceding (fun p => (t p).commit) code.length) ∧
      s.machine.counters.stalls = t.stalls code.length := by
  have hfinished := h.finished hc
  have hcount : s.machine.commits.toList.length = code.length := hfinished.complete_iff.1 hcomplete
  have hcoh := h.coherent hc
  have hunits : ∀ i ∈ code, 1 ≤ config.stations i.opcode.unit := by
    intro i hi
    obtain ⟨p, hp⟩ := List.mem_iff_getElem?.1 hi
    have hlt := (List.getElem?_eq_some_iff.1 hp).1
    exact h.staffed_units hc p (Nat.lt_of_lt_of_le hlt (hcount ▸ hcoh.order.commits_le)) i hp
  have hrecorded : ∀ t : Timetable, t.Solves config code → ∀ p < code.length,
      ∃ v, s.machine.fetch.current? p = some v ∧ v.times = (t p).times := fun t ht =>
    hcount ▸ (h.upToDate hc ht hnone).onSchedule.recorded
  obtain ⟨t, ht⟩ := Timetable.exists_solves hc hunits
  have hup := h.upToDate hc ht hnone
  refine ⟨t, ht, fun t' ht' p hp => ?_, hrecorded t ht, hup.finishedAt_eq hcoh hfinished hcomplete,
    hup.stalls_eq ht hcount⟩
  -- both tell the times that the run has recorded
  obtain ⟨v, hv, htimes⟩ := hrecorded t ht p hp
  obtain ⟨v', hv', htimes'⟩ := hrecorded t' ht' p hp
  obtain rfl := Option.some.inj (hv.symm.trans hv')
  exact Entry.times_inj (htimes'.symm.trans htimes)

/-- Two slots: the second instruction waits for the product of the first in its station, the third for a slot. -/
theorem run_keeps_timetable_full_window : ∃ (config : Config) (code : List Instruction) (trace : List Deed)
    (s : Session) (t : Timetable), config.Admitted ∧ Session.Reached config code trace s ∧
      s.isComplete = true ∧ s.machine.counters.squashed = 0 ∧ t.Solves config code ∧
      t 1 = ⟨2, 5, 5, 6, 7⟩ ∧ t 2 = ⟨7, 8, 8, 9, 10⟩ ∧ t.stalls 3 = 6 := by
  let mul : Instruction := ⟨.mul, some ⟨1⟩, ⟨2⟩, some ⟨3⟩, 0, []⟩
  let twice : Instruction := ⟨.add, some ⟨4⟩, ⟨1⟩, some ⟨1⟩, 0, []⟩
  let add : Instruction := ⟨.add, some ⟨5⟩, ⟨2⟩, some ⟨3⟩, 0, []⟩
  let config : Config := { Config.standard with robCapacity := 2, memorySize := 0 }
  have hadmitted : config.Admitted := ⟨by decide, by decide, by decide⟩
  have hrun : ∃ r ∈ Session.tracedRun config [mul, twice, add] 10, r.2.isComplete = true ∧
      r.2.machine.counters.squashed = 0 ∧ r.2.machine.counters.stalls = 6 ∧
      (r.2.machine.fetch.current? 1).map Instance.times = some (Entry.times ⟨2, 5, 5, 6, 7⟩) ∧
      (r.2.machine.fetch.current? 2).map Instance.times = some (Entry.times ⟨7, 8, 8, 9, 10⟩) := by
    decide +kernel
  obtain ⟨⟨trace, s⟩, hr, hcomplete, hnone, hstalls, hsecond, hthird⟩ := hrun
  have hreached := Session.Reached.of_tracedRun hr
  obtain ⟨t, ht, -, htimes, -, hall⟩ := run_keeps_timetable hadmitted hreached hcomplete hnone
  have hentry : ∀ p < 3, ∀ e : Entry,
      (s.machine.fetch.current? p).map Instance.times = some e.times → t p = e := by
    intro p hp e he
    obtain ⟨v, hv, hv'⟩ := htimes p hp
    rw [hv, Option.map_some, Option.some.injEq, hv'] at he
    exact Entry.times_inj he
  exact ⟨config, _, trace, s, t, hadmitted, hreached, hcomplete, hnone, ht, hentry 1 (by decide) _ hsecond,
    hentry 2 (by decide) _ hthird, hall.symm.trans hstalls⟩

end OutOfOrder
