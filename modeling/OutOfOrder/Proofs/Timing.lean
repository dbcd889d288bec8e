import OutOfOrder.Proofs.Schedule

/-!
The machine against a timetable, turn by turn, as long as nothing is squashed. The stations, the issue and the
commit each have a clock of their own, for in the middle of a cycle some of them are through with it and some
are not.
-/

set_option autoImplicit false

namespace OutOfOrder

open Machine

variable {code : List Instruction} {m m' : Machine}

/-- The machines differ in their memories, their counters and in what they report, if at all. -/
structure Alike (m m' : Machine) : Prop where
  window : m'.rob.window = m.rob.window
  stations : ∀ i : Nat, m'.stations.stations[i]? = m.stations.stations[i]?
  pc : m'.fetch.pc = m.fetch.pc
  current : ∀ p, m'.fetch.current? p = m.fetch.current? p
  commits : m'.commits = m.commits

theorem SameCore.alike (h : SameCore m m') : Alike m m' :=
  ⟨by rw [h.rob], fun _ => by rw [h.stations], by rw [h.fetch], fun _ => by rw [h.fetch], h.commits⟩

theorem Machine.Mans.of_alike (h : Alike m m') {i k : Nat} {st : Station} {s : Slot} {v : Instance}
    (hm : m'.Mans i st k s v) : m.Mans i st k s v where
  slot := h.window ▸ hm.slot
  pending := hm.pending
  occupant := hm.occupant
  current := h.current _ ▸ hm.current
  uncommitted := h.commits ▸ hm.uncommitted
  issued := h.pc ▸ hm.issued
  station := h.stations i ▸ hm.station
  busy := hm.busy
  named := hm.named

/-- A taken branch with nothing behind it changes nothing. -/
theorem Machine.Clears.alike (h : Coherent code m) {b : Nat} (cleared : m.Clears b m')
    (hnone : m'.counters.squashed = m.counters.squashed) : Alike m m' := by
  have hnil : m.fetch.issuedAfter b = [] := by
    have hcount := congrArg Counters.squashed cleared.counters
    dsimp only at hcount
    exact List.length_eq_zero_iff.1 (by omega)
  have hpc : m.fetch.pc = b + 1 := by
    have hrange := h.order.issuedAfter_eq b
    have hissued := cleared.issued
    rw [hnil, List.map_nil, eq_comm, List.map_eq_nil_iff, List.range'_eq_nil_iff] at hrange
    omega
  refine ⟨?_, fun j => ?_, ?_, fun p => ?_, cleared.commits⟩
  · rw [cleared.window]
    refine (List.map_congr_left fun s hs => ?_).trans (List.map_id' _)
    refine Slot.cancelAfter_of_isAfter_eq_false ?_
    by_cases hl : s.isLive = true
    · obtain ⟨v, ho, -, -, hlt⟩ := h.order.current_of_live hs hl
      have hle : ¬b < v.id.position := by omega
      simp [Slot.isAfter, ho, hle]
    · simp [Slot.isAfter, hl]
  · rw [cleared.stations, hnil]
    have hvacate : Staffed.vacate (tagsOf [] m.rob.window) = id := by
      funext st
      simp [Staffed.vacate, tagsOf]
    rw [hvacate, Option.map_id_fun, id_eq]
  · rw [cleared.fetch, h.order.pc_renewAfter cleared.issued, hpc]
  · rw [cleared.fetch, Fetch.current?_renewAfter h.order.orderly]
    cases hv : m.fetch.current? p with
    | none => rfl
    | some v =>
      rw [Option.map_some, if_neg]
      rintro ⟨hlt, hstage⟩
      exact hstage (h.order.waiting p v (by omega) hv)

/-! ### Windows in which nothing is cancelled -/

section Straight

variable {k : Nat} {s : Slot}

theorem isLive_of_mem_map {w : List Slot} {g : Slot → Slot} (hlive : ∀ s ∈ w, s.isLive = true)
    (hrole : ∀ s ∈ w, s.SameRole (g s)) : ∀ s ∈ w.map g, s.isLive = true :=
  List.forall_mem_map.2 fun s hs => (hrole s hs).isLive.trans (hlive s hs)

theorem Coherent.map_occupant (h : Coherent code m) (hlive : ∀ s ∈ m.rob.window, s.isLive = true) :
    m.rob.window.map Slot.occupant = (List.range' m.commits.toList.length
      (m.fetch.pc - m.commits.toList.length)).map m.fetch.idAt := by
  rw [← h.order.live_eq, List.filter_eq_self.2 hlive]

theorem Coherent.length_window (h : Coherent code m) (hlive : ∀ s ∈ m.rob.window, s.isLive = true) :
    m.rob.window.length = m.fetch.pc - m.commits.toList.length := by
  have hlength := congrArg List.length (h.map_occupant hlive)
  simpa using hlength

/-- The slots hold the positions in flight one after the other. -/
theorem Coherent.position_of_place (h : Coherent code m) (hlive : ∀ s ∈ m.rob.window, s.isLive = true)
    (hk : m.rob.window[k]? = some s) : ∃ id, s.occupant = some id ∧
      id.position = m.commits.toList.length + k ∧ id.position < m.fetch.pc := by
  have hlt := (List.getElem?_eq_some_iff.1 hk).1
  have hlength := h.length_window hlive
  have hpc := h.order.pc_le
  have hget := congrArg (·[k]?) (h.map_occupant hlive)
  obtain ⟨v, -, hid, hpos⟩ :=
    h.order.idAt_eq (show m.commits.toList.length + k < code.length by omega)
  simp only [List.getElem?_map, hk, Option.map_some] at hget
  rw [List.getElem?_range' (by omega), Option.map_some, Nat.one_mul, hid, Option.some.injEq] at hget
  exact ⟨v.id, hget, hpos, by omega⟩

/-- The last writer before a place holds the latest position before that writes the register, unless that one
has committed. -/
theorem Coherent.writerBefore_eq (h : Coherent code m) (hlive : ∀ s ∈ m.rob.window, s.isLive = true)
    (r : Register) (hk : k ≤ m.rob.window.length) :
    writerBefore code r (m.commits.toList.length + k) =
      match lastWriter (m.rob.window.take k) r with
      | some s => s.occupant.map InstanceId.position
      | none => writerBefore code r m.commits.toList.length := by
  induction k with
  | zero => simp [lastWriter]
  | succ k ih =>
    obtain ⟨s, hs⟩ : ∃ s, m.rob.window[k]? = some s := ⟨_, List.getElem?_eq_getElem hk⟩
    have hmem := List.mem_of_getElem? hs
    obtain ⟨id, ho, hposition, -⟩ := h.position_of_place hlive hs
    obtain ⟨id', i, ho', hcode, -, harch⟩ := h.order.holds s hmem
    obtain rfl := Option.some.inj (ho.symm.trans ho')
    have hwrites : s.writes r = true ↔ i.dest = some r := by simp [Slot.writes, hlive s hmem, harch]
    rw [hposition] at hcode
    rw [← Nat.add_assoc, writerBefore, hcode, Option.bind_some, List.take_add_one, hs, Option.toList_some,
      lastWriter_concat, ih (Nat.le_of_succ_le hk)]
    by_cases hdest : i.dest = some r
    · rw [if_pos hdest, if_pos (hwrites.2 hdest)]
      simp [ho, hposition]
    · rw [if_neg hdest, if_neg (mt hwrites.1 hdest)]

end Straight

/-! ### What the slots show -/

/-- A cycle that is past. -/
def shown (c n : Nat) : Option Nat := if n ≤ c then some n else none

namespace Entry

/-- The times of a slot whose station has executed up to cycle `c` and has not given its result. -/
def upTo (e : Entry) (c : Nat) : Times := ⟨some e.issue, shown c e.execute, shown c e.executeDone, none, none⟩

/-- The times of a slot with its result. -/
def written (e : Entry) : Times :=
  ⟨some e.issue, some e.execute, some e.executeDone, some e.write, none⟩

end Entry

namespace Timetable.Obeys

variable {config : Config} {t : Timetable} {p c : Nat} {instr : Instruction} {s : Slot}

/-- Nothing but the issue shows in its own cycle. -/
theorem upTo_issue (h : t.Obeys config code p instr) :
    (t p).upTo (t p).issue = { Times.none with issue := some (t p).issue } := by
  have hexecute := h.issue_lt_execute
  have hwrite := h.execute_lt_write
  have hdone := h.write_eq
  rw [Entry.upTo, shown, shown, if_neg (by omega), if_neg (by omega)]
  rfl

/-- A station that waits for operands shows nothing new. -/
theorem upTo_succ (h : t.Obeys config code p instr) (hx : c + 1 < (t p).execute) :
    (t p).upTo (c + 1) = (t p).upTo c := by
  have hexecute := h.execute_lt_write
  have hdone := h.write_eq
  rw [Entry.upTo, Entry.upTo, shown, shown, shown, shown, if_neg (by omega), if_neg (by omega),
    if_neg (by omega), if_neg (by omega)]

/-- A cycle of execution shows when it is the first one or the last. -/
theorem times_ran (h : t.Obeys config code p instr) (htimes : s.times = (t p).upTo c)
    (hx : (t p).execute ≤ c + 1) (hw : c + 1 < (t p).write) :
    (s.ran (c + 1) (min instr.opcode.latency ((t p).write - (c + 1)))).times = (t p).upTo (c + 1) := by
  have hwrite := h.write
  have hdone := h.write_eq
  have hnone : shown c (t p).executeDone = none := if_neg (by omega)
  rw [Entry.upTo, hnone] at htimes
  have hbegun : (s.begun (c + 1)).times = ⟨some (t p).issue, some (t p).execute, none, none, none⟩ := by
    by_cases hle : (t p).execute ≤ c
    · rw [shown, if_pos hle] at htimes
      simp [Slot.begun, htimes]
    · have hfirst : (t p).execute = c + 1 := by omega
      rw [shown, if_neg hle] at htimes
      simp [Slot.begun, Slot.started, htimes, hfirst]
  have hx' : shown (c + 1) (t p).execute = some (t p).execute := if_pos hx
  rw [Slot.ran, Entry.upTo, hx', shown]
  split
  · have hlast : (t p).executeDone = c + 1 := by omega
    show { (s.begun (c + 1)).times with executeDone := some (c + 1) } = _
    rw [hbegun, hlast, if_pos (Nat.le_refl _)]
  · rw [hbegun, if_neg (by omega)]

end Timetable.Obeys

/-- Between two turns: `write` is the last cycle in which every result that was due has been given, `run` says of
each station up to which cycle it has executed, `issue` and `commit` are the last cycles in which the cursor and
the head had their turn. -/
structure OnSchedule (code : List Instruction) (t : Timetable) (write : Nat) (run : Nat → Nat)
    (issue commit : Nat) (m : Machine) : Prop where
  live : ∀ s ∈ m.rob.window, s.isLive = true
  issue_le : ∀ p < m.fetch.pc, (t p).issue ≤ issue
  lt_issue : m.fetch.pc < code.length → issue < (t m.fetch.pc).issue
  commit_le : ∀ p < m.commits.toList.length, (t p).commit ≤ commit
  lt_commit : m.commits.toList.length < code.length → commit < (t m.commits.toList.length).commit
  recorded : ∀ p < m.commits.toList.length, ∃ v, m.fetch.current? p = some v ∧ v.times = (t p).times
  written : ∀ s ∈ m.rob.window, s.ready = true → ∀ id, s.occupant = some id →
    s.times = (t id.position).written ∧ (t id.position).write ≤ m.cycle
  working : ∀ i st k s v, m.Mans i st k s v → s.times = (t v.id.position).upTo (run i) ∧
    st.remaining = min v.instr.opcode.latency ((t v.id.position).write - (run i + 1)) ∧
    write < (t v.id.position).write

namespace OnSchedule

variable {config : Config} {t : Timetable} {write issue commit c : Nat} {run : Nat → Nat} {i k : Nat}
  {st : Station} {s : Slot} {v : Instance} {tag : Tag} {result : Word}

theorem of_alike (h : OnSchedule code t write run issue commit m) (hs : Alike m m') (hc : m.cycle ≤ m'.cycle) :
    OnSchedule code t write run issue commit m' where
  live := hs.window ▸ h.live
  issue_le := hs.pc ▸ h.issue_le
  lt_issue := hs.pc ▸ h.lt_issue
  commit_le := hs.commits ▸ h.commit_le
  lt_commit := hs.commits ▸ h.lt_commit
  recorded := by
    rw [hs.commits]
    intro p hp
    rw [hs.current]
    exact h.recorded p hp
  written := by
    rw [hs.window]
    intro s hs' hr id ho
    obtain ⟨htimes, hle⟩ := h.written s hs' hr id ho
    exact ⟨htimes, by omega⟩
  working := fun i st k s v hm => h.working i st k s v (hm.of_alike hs)

/-- The instruction that a station works for obeys the timetable. -/
theorem obeys (ht : t.Solves config code) (hcoh : Coherent code m) (hm : m.Mans i st k s v) :
    t.Obeys config code v.id.position v.instr :=
  ht _ _ (hcoh.order.orderly.instr_current hm.current)

/-! ### Write result -/

theorem gives (h : OnSchedule code t c (fun _ => c) issue commit m) (ht : t.Solves config code)
    (hcoh : Coherent code m) (hcycle : m.cycle = c + 1) (given : m.Gives i k st s v tag result m') :
    OnSchedule code t c (fun _ => c) issue commit m' where
  live := by
    rw [given.window]
    exact isLive_of_mem_map h.live given.arrives.sameRole
  issue_le := by
    rw [given.fetch]
    exact h.issue_le
  lt_issue := by
    rw [given.fetch]
    exact h.lt_issue
  commit_le := given.commits ▸ h.commit_le
  lt_commit := given.commits ▸ h.lt_commit
  recorded := by
    rw [given.commits]
    intro p hp
    have huncommitted := given.uncommitted
    rw [given.fetch, given.toAwaits.current?_modify hcoh, if_neg (by omega)]
    exact h.recorded p hp
  written := by
    rw [given.move.steady.cycle]
    intro u hu hr id ho
    rcases given.mem_of_ready hcoh hu hr with rfl | hu
    · obtain rfl := Option.some.inj (given.occupant.symm.trans ho)
      obtain ⟨htimes, hremaining, hlt⟩ := h.working i st k s v given.mans
      have hobeys := obeys ht hcoh given.mans
      have hexecute := hobeys.execute_lt_write
      have hdone := hobeys.write_eq
      have hlatency := v.instr.opcode.latency_ne_zero
      rw [given.last] at hremaining
      have hwrite : (t v.id.position).write = c + 1 := by omega
      refine ⟨?_, by omega⟩
      show { s.times with write := some m.cycle } = _
      rw [htimes, hcycle, Entry.upTo, Entry.written, shown, shown, if_pos (by omega), if_pos (by omega), hwrite]
    · exact h.written u hu hr id ho
  working := fun j st' l u w hm => by
    obtain ⟨-, -, before, hbefore, rfl⟩ := Mans.of_gives hcoh given hm
    exact h.working j before l u w hbefore

theorem writeTurn (h : OnSchedule code t c (fun _ => c) issue commit m) (ht : t.Solves config code)
    (hcoh : Coherent code m) (hcycle : m.cycle = c + 1) (turn : m.WriteTurn i m')
    (hnone : m'.counters.squashed = m.counters.squashed) :
    OnSchedule code t c (fun _ => c) issue commit m' := by
  cases turn with
  | idle => exact h
  | gives given => exact h.gives ht hcoh hcycle given
  | clears given cleared =>
    have hmiddle := congrArg Counters.squashed given.counters
    refine (h.gives ht hcoh hcycle given).of_alike (cleared.alike (hcoh.move given.move) ?_)
      (Nat.le_of_eq cleared.move.steady.cycle.symm)
    exact hnone.trans hmiddle.symm

/-! ### Execute -/

/-- After the results of the cycle, a station has its operands if the timetable lets it execute. -/
theorem isReady_iff (h : OnSchedule code t m.cycle run issue commit m) (ht : t.Solves config code)
    (hcoh : Coherent code m) (hissue : issue < m.cycle) (hcommit : commit < m.cycle)
    (hm : m.Mans i st k s v) : st.isReady = true ↔ (t v.id.position).execute ≤ m.cycle := by
  obtain ⟨id, ho, hposition, hlt⟩ := hcoh.position_of_place h.live hm.slot
  obtain rfl := Option.some.inj (hm.occupant.symm.trans ho)
  have hk := Nat.le_of_lt (List.getElem?_eq_some_iff.1 hm.slot).1
  rw [(obeys ht hcoh hm).execute_le_iff, hm.isReady_iff hcoh]
  constructor
  · refine fun hready => ⟨Nat.lt_of_le_of_lt (h.issue_le _ hlt) hissue, fun q hq => ?_⟩
    obtain ⟨r, hr, hwriter⟩ := mem_producers.1 hq
    rw [hposition, hcoh.writerBefore_eq h.live r hk] at hwriter
    cases hl : lastWriter (m.rob.window.take k) r with
    | some u =>
      rw [hl] at hwriter
      obtain ⟨id, hu, rfl⟩ := Option.map_eq_some_iff.1 hwriter
      exact (h.written u (List.take_subset _ _ (mem_of_lastWriter hl).1) (hready r hr u hl) id hu).2
    | none =>
      -- the producer has left the window, and it wrote before it committed
      rw [hl] at hwriter
      have hq := lt_of_writerBefore hwriter
      have hle := hcoh.order.commits_le
      have hpc := hcoh.order.pc_le
      obtain ⟨i, hobeys⟩ := ht.obeys (show q < code.length by omega)
      have hlt := hobeys.write_lt_commit
      have hcommitted := h.commit_le q hq
      omega
  · rintro ⟨-, hproducers⟩ r hr u hl
    -- a writer without its result is still at work, so that the result is not due
    by_contra hready
    rw [Bool.not_eq_true] at hready
    have hmem := List.take_subset _ _ (mem_of_lastWriter hl).1
    obtain ⟨j, hj⟩ := List.mem_iff_getElem?.1 hmem
    obtain ⟨w, awaits⟩ := hcoh.awaits hj (Slot.isPending_eq_true.2 ⟨h.live u hmem, hready⟩)
    obtain ⟨n, st', hmans⟩ := exists_mans_of_awaits hcoh awaits
    have hlate := (h.working n st' j u w hmans).2.2
    refine absurd (hproducers w.id.position (mem_producers.2 ⟨r, hr, ?_⟩)) (by omega)
    rw [hposition, hcoh.writerBefore_eq h.live r hk, hl]
    exact congrArg (Option.map InstanceId.position) awaits.occupant

theorem runs (h : OnSchedule code t (c + 1) run issue commit m) (ht : t.Solves config code)
    (hcoh : Coherent code m) (hcycle : m.cycle = c + 1) (ran : m.Runs i k st s v m')
    (hx : (t v.id.position).execute ≤ c + 1) (hi : run i = c) {run' : Nat → Nat} (hi' : run' i = c + 1)
    (hne : ∀ j, j ≠ i → run' j = run j) : OnSchedule code t (c + 1) run' issue commit m' := by
  refine
    { live := ?_, issue_le := ran.pc_eq ▸ h.issue_le, lt_issue := ran.pc_eq ▸ h.lt_issue
      commit_le := ran.commits ▸ h.commit_le, lt_commit := ran.commits ▸ h.lt_commit
      recorded := ?_, written := ?_, working := fun j st' l u w hm => ?_ }
  · rw [ran.window]
    exact isLive_of_mem_map h.live (ran.sameRole hcoh)
  · rw [ran.commits]
    intro p hp
    have huncommitted := ran.uncommitted
    rw [ran.fetch]
    split
    · rw [ran.toAwaits.current?_modify hcoh, if_neg (by omega)]
      exact h.recorded p hp
    · exact h.recorded p hp
  · rw [ran.moves.steady.cycle]
    exact fun u hu hr id ho => h.written u (ran.mem_of_ready hcoh hu hr) hr id ho
  · rcases Mans.of_runs hcoh ran hm with ⟨rfl, rfl, rfl, rfl, rfl⟩ | ⟨hj, -, hbefore⟩
    · obtain ⟨htimes, hremaining, hlt⟩ := h.working _ _ _ _ _ ran.mans
      have hobeys := obeys ht hcoh ran.mans
      have hwrite := hobeys.write
      have hmore := ran.more
      rw [hi] at htimes hremaining
      have hposition : ∀ (w : Instance), w.id = v.id → w.instr = v.instr →
          (s.ran m.cycle st.remaining).times = (t w.id.position).upTo (run' j) ∧
            st.remaining - 1 = min w.instr.opcode.latency ((t w.id.position).write - (run' j + 1)) ∧
            c + 1 < (t w.id.position).write := by
        intro w hid hinstr
        rw [hid, hinstr, hi', hremaining, hcycle]
        exact ⟨hobeys.times_ran htimes hx hlt, by omega, hlt⟩
      exact hposition _ (by split <;> rfl) (by split <;> rfl)
    · rw [hne j hj]
      exact h.working j st' l u w hbefore

theorem executeTurn (h : OnSchedule code t (c + 1) run issue commit m) (ht : t.Solves config code)
    (hcoh : Coherent code m) (hcycle : m.cycle = c + 1) (hissue : issue ≤ c) (hcommit : commit ≤ c)
    (turn : m.ExecuteTurn i m') (hi : run i = c) {run' : Nat → Nat} (hi' : run' i = c + 1)
    (hne : ∀ j, j ≠ i → run' j = run j) : OnSchedule code t (c + 1) run' issue commit m' := by
  have hready : ∀ st k s v, m.Mans i st k s v →
      (st.isReady = true ↔ (t v.id.position).execute ≤ c + 1) := fun st k s v hm =>
    hcycle ▸ isReady_iff (hcycle.symm ▸ h) ht hcoh (by omega) (by omega) hm
  cases turn with
  | @rests st station done =>
    refine { h with working := fun j st' l u w hm => ?_ }
    by_cases hj : j = i
    · subst hj
      obtain rfl := Option.some.inj (station.symm.trans hm.station)
      obtain ⟨-, hremaining, hlt⟩ := h.working j st l u w hm
      have hlatency := w.instr.opcode.latency_ne_zero
      rw [hi] at hremaining
      rcases done with hb | hz
      · simp [hm.busy] at hb
      · omega
    · rw [hne j hj]
      exact h.working j st' l u w hm
  | @waits st station busy more unready =>
    refine of_alike (m := m) { h with working := fun j st' l u w hm => ?_ }
      ⟨rfl, fun _ => rfl, rfl, fun _ => rfl, rfl⟩ (Nat.le_refl _)
    by_cases hj : j = i
    · subst hj
      obtain rfl := Option.some.inj (station.symm.trans hm.station)
      obtain ⟨htimes, hremaining, hlt⟩ := h.working j st l u w hm
      have hobeys := obeys ht hcoh hm
      have hwrite := hobeys.write
      have hlate : c + 1 < (t w.id.position).execute := by
        rw [← Nat.not_le, ← hready st l u w hm, unready]
        simp
      rw [hi] at htimes hremaining
      rw [hi', hobeys.upTo_succ hlate]
      exact ⟨htimes, by omega, hlt⟩
    · rw [hne j hj]
      exact h.working j st' l u w hm
  | runs ran =>
    exact h.runs ht hcoh hcycle ran ((hready _ _ _ _ ran.mans).1 ran.ready) hi hi' hne

end OnSchedule

end OutOfOrder
