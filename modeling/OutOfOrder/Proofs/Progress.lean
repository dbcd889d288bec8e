import OutOfOrder.Proofs.CommitOrder
import OutOfOrder.Proofs.Front
import OutOfOrder.Proofs.Safety
import OutOfOrder.Proofs.StraightRun

/-!
Every run gets on. After a position has committed, the cancelled slots behind it drain one per cycle and the
next position is issued within a cycle, so that it commits before long: the cycles between two commits have a
bound, and so has the run.
-/

set_option autoImplicit false

namespace OutOfOrder

/-! ### From commit to commit -/

section Timely

variable {code : List Instruction} {m m' : Machine}

open Machine

namespace Machine

/-- The cycle in which the current version of a position committed. -/
def commitTime (m : Machine) (p : Nat) : Option Nat := (m.fetch.current? p).bind (·.times.commit)

/-- The cycle in which the position before committed; zero for the first. -/
def previousCommit (m : Machine) : Nat → Nat
  | 0 => 0
  | p + 1 => (m.commitTime p).getD 0

/-- The most cycles from one commit to the next. -/
def pace (m : Machine) : Nat := max 8 m.rob.capacity

end Machine

theorem Machine.pace_of_capacity (h : m'.rob.capacity = m.rob.capacity) : m'.pace = m.pace := by
  rw [pace, pace, h]

theorem Machine.commitTime_of_fetch (hf : m'.fetch = m.fetch) : m'.commitTime = m.commitTime := by
  funext p
  rw [commitTime, commitTime, hf]

theorem Machine.previousCommit_of_fetch (hf : m'.fetch = m.fetch) : m'.previousCommit = m.previousCommit := by
  funext p
  cases p with
  | zero => rfl
  | succ p => rw [previousCommit, previousCommit, commitTime_of_fetch hf]

/-- What has committed keeps its time. -/
theorem Extends.commitTime_eq {added : List InstanceId} (he : Extends m m' added) {p : Nat}
    (hp : p < m.commits.toList.length) : m'.commitTime p = m.commitTime p := by
  rw [commitTime, commitTime, he.kept p hp]

theorem Extends.previousCommit_eq {added : List InstanceId} (he : Extends m m' added) {p : Nat}
    (hp : p ≤ m.commits.toList.length) : m'.previousCommit p = m.previousCommit p := by
  cases p with
  | zero => rfl
  | succ p => rw [previousCommit, previousCommit, he.commitTime_eq hp]

/-- Between two cycles: how far the run is, measured from the last commit. -/
structure Timely (n : Nat) (m : Machine) : Prop where
  front : Front (m.previousCommit m.commits.toList.length) (fun _ => m.cycle) m
  previous_le : m.previousCommit m.commits.toList.length ≤ m.cycle
  lead : lead m.rob.window = 0 ∨
    lead m.rob.window + (m.cycle - m.previousCommit m.commits.toList.length) < m.rob.capacity
  room : m.cycle = m.previousCommit m.commits.toList.length →
    m.rob.window.length < m.rob.capacity ∧ m.rob.window.length < m.physical.count
  issued : m.previousCommit m.commits.toList.length < m.cycle → m.commits.toList.length < n →
    m.commits.toList.length < m.fetch.pc
  soon : m.commits.toList.length < n →
    m.cycle < m.previousCommit m.commits.toList.length + m.pace
  spaced : ∀ p < m.commits.toList.length, ∃ c, m.commitTime p = some c ∧ c ≤ m.previousCommit p + m.pace

namespace Timely

theorem of_core {n : Nat} (h : Timely n m) (hs : SameCore m m') (hc : m'.cycle = m.cycle) : Timely n m' := by
  have hpace : m'.pace = m.pace := pace_of_capacity (by rw [hs.rob])
  constructor
  · rw [hs.commits, previousCommit_of_fetch hs.fetch, hc]
    exact h.front.of_core hs (Nat.le_of_eq hc.symm)
  · rw [hs.commits, previousCommit_of_fetch hs.fetch, hc]
    exact h.previous_le
  · rw [hs.commits, previousCommit_of_fetch hs.fetch, hc, hs.rob]
    exact h.lead
  · rw [hs.commits, previousCommit_of_fetch hs.fetch, hc, hs.rob, hs.physical]
    exact h.room
  · rw [hs.commits, previousCommit_of_fetch hs.fetch, hc, hs.fetch]
    exact h.issued
  · rw [hs.commits, previousCommit_of_fetch hs.fetch, hc, hpace]
    exact h.soon
  · rw [hs.commits, previousCommit_of_fetch hs.fetch, commitTime_of_fetch hs.fetch, hpace]
    exact h.spaced

end Timely

/-- Within a cycle, before its commit phase; `c` is the cycle before. -/
structure Poised (t c : Nat) (m : Machine) : Prop where
  front : Front t (fun _ => c + 1) m
  cycle : m.cycle = c + 1
  previous : m.previousCommit m.commits.toList.length = t
  previous_le : t ≤ c
  lead : lead m.rob.window = 0 ∨ lead m.rob.window + (c - t) < m.rob.capacity
  issued : m.commits.toList.length < m.fetch.pc
  soon : c < t + m.pace
  spaced : ∀ p < m.commits.toList.length, ∃ c, m.commitTime p = some c ∧ c ≤ m.previousCommit p + m.pace

/-- The phases before the commit phase leave the front in place, and what is in front is issued by then. -/
theorem Timely.poised (h : Timely code.length m) (hcoh : Coherent code m)
    (hlt : m.commits.toList.length < code.length) (hunits : ∀ i ∈ code, i.opcode.unit ∈ m.stations.units)
    {written executed issued : Machine} (hw : m.tick.writeResults = .ok written)
    (hwritten : Coherent code written) (he : written.execute = .ok executed)
    (hexecuted : Coherent code executed) (turn : executed.IssueTurn issued) :
    Poised (m.previousCommit m.commits.toList.length) m.cycle issued := by
  have hmoves := (writeResults_moves hcoh.tick hw).trans (execute_moves hwritten he)
  have hsteady := hmoves.steady
  have hsteady' := turn.moves.steady
  obtain ⟨added, hextends⟩ := hcoh.tick.extends_of_moves (hmoves.trans turn.moves)
  obtain ⟨hfront, hsame⟩ :=
    (h.front.of_core m.sameCore_tick (Nat.le_succ _)).writeResults hcoh.tick rfl hw
  obtain ⟨hfront, hsame'⟩ := hfront.execute hwritten (fun _ _ => writeResults_leaves hcoh.tick hw) he
  have hsame : SameFront m.tick executed := hsame.trans hsame'
  have hcommits : executed.commits = m.commits := hsame.commits
  obtain ⟨hcommits', hlead, hpc⟩ := turn.keeps
  have hcap : issued.rob.capacity = m.rob.capacity := hsteady'.capacity.trans hsteady.capacity
  have hpace : issued.pace = m.pace := pace_of_capacity hcap
  have hfirst : executed.fetch.pc ≤ m.commits.toList.length →
      m.cycle = m.previousCommit m.commits.toList.length := by
    intro hle
    by_contra hne
    have hissued := hsame.issued (h.issued (by have := h.previous_le; omega) hlt)
    exact absurd hissued (Nat.not_lt.2 hle)
  refine
    { front := hfront.issueTurn hexecuted (fun he => ?_) turn
      cycle := hsteady'.cycle.trans hsteady.cycle
      previous := ?_, previous_le := h.previous_le, lead := ?_, issued := ?_
      soon := by rw [hpace]; exact h.soon hlt
      spaced := ?_ }
  · exact Nat.le_of_eq (hfirst (by rw [he, hcommits]))
  · rw [hcommits', hcommits]
    exact hextends.previousCommit_eq (Nat.le_refl _)
  · rw [hlead, hcap, hsame.lead]
    exact h.lead
  · rw [hcommits', hcommits]
    by_cases hlt' : m.commits.toList.length < executed.fetch.pc
    · omega
    -- the one before it committed just now: nothing that is in flight is in its way
    · obtain ⟨hslot, hregister⟩ := h.room (hfirst (by omega))
      have heq := turn.pc_eq hexecuted (by omega)
        (by rw [hcoh.tick.units_of_moves hmoves]; exact hunits)
        (by rw [hsame.length, hsteady.capacity]; exact hslot)
        (by rw [hsame.length, hsteady.physical]; exact hregister)
        fun i st => hexecuted.idle_of_caught_up (by rw [hcommits]; omega)
      have hle := hexecuted.order.commits_le
      rw [hcommits] at hle
      omega
  · rw [hcommits', hcommits, hpace]
    intro p hp
    rw [hextends.commitTime_eq hp, hextends.previousCommit_eq (Nat.le_of_lt hp)]
    exact h.spaced p hp

namespace Poised

variable {t c : Nat}

/-- What is in front and stands at the head commits as soon as it may. -/
theorem soon_of_early (h : Poised t c m) (hcoh : Coherent code m) {s : Slot} {rest : List Slot}
    (head : m.rob.window = s :: rest) (live : s.isLive = true) (may : m.mayCommit s = false) :
    c + 1 < t + 8 := by
  have hs : m.rob.window[0]? = some s := by rw [head]; rfl
  obtain ⟨id, ho, hp⟩ := hcoh.position_of_first (s := s) (by rw [head, List.find?_cons_of_pos live])
  -- it waits either for the cycle after its write or for its own station, which has its operands
  cases hready : s.ready with
  | true =>
    obtain ⟨w, hw, hle⟩ := h.front.written s (List.mem_of_getElem? hs) live id ho hp hready
    have hcycle := h.cycle
    simp [mayCommit, hready, hw] at may
    omega
  | false =>
    obtain ⟨v, awaits⟩ := hcoh.awaits hs (Slot.isPending_eq_true.2 ⟨live, hready⟩)
    obtain rfl := Option.some.inj (ho.symm.trans awaits.occupant)
    obtain ⟨i, st, hm⟩ := exists_mans_of_awaits hcoh awaits
    have hle := h.front.working i st 0 s v hm hp
    omega

/-- Nothing has left the window. -/
theorem stays (h : Poised t c m) (hlead : OutOfOrder.lead m.rob.window = 0) (hsoon : c + 1 < t + m.pace) :
    Timely code.length m where
  front := by rw [h.previous, h.cycle]; exact h.front
  previous_le := by
    have := h.previous_le
    rw [h.previous, h.cycle]
    omega
  lead := .inl hlead
  room := by
    have := h.previous_le
    rw [h.previous, h.cycle]
    omega
  issued := fun _ _ => h.issued
  soon := fun _ => by rw [h.previous, h.cycle]; exact hsoon
  spaced := h.spaced

/-- A cancelled slot has left the window. -/
theorem discards (h : Poised t c m) {s : Slot} {rest : List Slot} (left : m.Leaves s rest m')
    (move : m.Move [] m') (dead : s.isLive = false) (fetch : m'.fetch = m.fetch)
    (commits : m'.commits = m.commits) : Timely code.length m' := by
  have hcycle : m'.cycle = c + 1 := move.steady.cycle.trans h.cycle
  have hcapacity := move.steady.capacity
  have hpace : m'.pace = m.pace := pace_of_capacity hcapacity
  have hprevious : m'.previousCommit m'.commits.toList.length = t := by
    rw [previousCommit_of_fetch fetch, commits, h.previous]
  have hle := h.previous_le
  have hlead : OutOfOrder.lead rest + (c + 1 - t) < m.rob.capacity := by
    have hlead := h.lead
    rw [left.head, lead_cons, dead] at hlead
    simp only [Bool.false_eq_true, if_false] at hlead
    omega
  refine ⟨?_, ?_, ?_, ?_, fun _ _ => ?_, fun _ => ?_, ?_⟩
  · rw [hprevious, hcycle]
    exact h.front.leaves left commits move.steady.cycle
  · omega
  · rw [hprevious, hcycle, hcapacity, left.window]
    exact .inr hlead
  · omega
  · rw [fetch, commits]
    exact h.issued
  · rw [hprevious, hcycle, hpace]
    unfold pace
    omega
  · rw [previousCommit_of_fetch fetch, commitTime_of_fetch fetch, commits, hpace]
    exact h.spaced

/-- What was in front has committed, and the next position takes its place. -/
theorem commits (h : Poised t c m) (hcoh : Coherent code m) {s : Slot} {rest : List Slot} {v : Instance}
    {d : List Deed} (left : m.Leaves s rest m') (move : m.Move d m')
    (current : m.fetch.current? v.id.position = some v) (position : v.id.position = m.commits.toList.length)
    (fetch : m'.fetch = m.fetch.modify v.id (Sequenced.moved .committed (s.completed m.cycle).times))
    (commits : m'.commits = m.commits.push v.id) : Timely code.length m' := by
  obtain ⟨added, hextends⟩ := hcoh.extends_of_move move
  have hcycle := move.steady.cycle
  have hpace : m'.pace = m.pace := pace_of_capacity move.steady.capacity
  have hcount : m'.commits.toList.length = m.commits.toList.length + 1 := by
    rw [commits, Array.toList_push, List.length_append, List.length_singleton]
  have htime : m'.commitTime m.commits.toList.length = some m.cycle := by
    rw [commitTime, fetch, ← position, Fetch.current?_modify hcoh.order.orderly current, if_pos rfl]
    rfl
  have hprevious : m'.previousCommit m'.commits.toList.length = m'.cycle := by
    rw [hcount, previousCommit, htime, hcycle]
    rfl
  have hslots := hcoh.ring.length_le
  have hregisters := hcoh.tags.length_add
  have hroom : rest.length < m'.rob.capacity ∧ rest.length < m'.physical.count := by
    rw [left.head, List.length_cons] at hslots hregisters
    rw [move.steady.capacity, move.steady.physical]
    omega
  refine ⟨?_, ?_, ?_, fun _ => ?_, ?_, fun _ => ?_, fun p hp => ?_⟩
  · rw [hprevious, hcycle]
    have hfront := h.front.restart left hcycle fun _ => Nat.le_of_eq h.cycle.symm
    rwa [← h.cycle] at hfront
  · exact Nat.le_of_eq hprevious
  · have hle := lead_le rest
    rw [hprevious, left.window]
    omega
  · rw [left.window]
    exact hroom
  · omega
  · rw [hprevious]
    unfold pace
    omega
  · rw [hpace]
    by_cases hp' : p < m.commits.toList.length
    · rw [hextends.commitTime_eq hp', hextends.previousCommit_eq (Nat.le_of_lt hp')]
      exact h.spaced p hp'
    · obtain rfl : p = m.commits.toList.length := by omega
      have hsoon := h.soon
      rw [htime, hextends.previousCommit_eq (Nat.le_refl _), h.previous, h.cycle]
      exact ⟨c + 1, rfl, by omega⟩

theorem turn (h : Poised t c m) (hcoh : Coherent code m) (turn : m.CommitTurn m') :
    Timely code.length m' := by
  cases turn with
  | empty window =>
    obtain ⟨s, hs, -⟩ := hcoh.order.exists_live (Nat.le_refl _) h.issued
    simp [window] at hs
  | early head live may =>
    have hsoon := h.soon_of_early hcoh head live may
    refine h.stays (by rw [head, lead_cons, if_pos live]) ?_
    unfold pace
    omega
  | commits left move _ _ _ _ current position fetch commits =>
    exact h.commits hcoh left move current position fetch commits
  | discards left move _ dead fetch commits => exact h.discards left move dead fetch commits

end Poised

/-- A cycle takes the run from one such state to another. -/
theorem Timely.cycle (h : Timely code.length m) (hcoh : Coherent code m)
    (hlt : m.commits.toList.length < code.length)
    (hunits : ∀ i ∈ code, i.opcode.unit ∈ m.stations.units) (hm : m.runCycle = .ok m') :
    Timely code.length m' := by
  obtain ⟨written, executed, issued, last, hw, hwritten, he, hexecuted, -, hit, hissued, -, hct, -, rfl⟩ :=
    runCycle_phases hcoh hm
  have hposed := h.poised hcoh hlt hunits hw hwritten he hexecuted hit
  exact (hposed.turn hissued hct).of_core last.sameCore_settle (cycle_settle last)

end Timely

/-! ### Whole runs -/

section Runs

variable {config : Config} {code : List Instruction} {trace : List Deed} {s s' : Session}

theorem Machine.timely_of_initial (hc : config.Admitted) {m : Machine}
    (h : Machine.initial config code = .ok m) : Timely code.length m := by
  have hfresh := Machine.fresh_of_initial hc h
  have hcoh := Coherent.initial hc h
  have hnil : ∀ (k : Nat) (s : Slot), m.rob.window[k]? ≠ some s := by simp [hfresh.window]
  have hcycle := hfresh.cycle_eq
  have hcount := hfresh.length_commits
  have hcapacity := hc.capacity_pos
  have hregisters : m.physical.count = config.highestPhys.toNat + 1 := by
    simp [hfresh.physical, PhysicalFile.ofCount, PhysicalFile.count, hc.physCount_eq]
  refine ⟨⟨fun i st k s v hm _ => absurd hm.slot (hnil k s), ?_, fun i st hi hb => ?_, ?_⟩, ?_, .inl ?_,
    fun _ => ?_, ?_, fun _ => ?_, ?_⟩
  · simp [hfresh.window]
  · obtain ⟨k, s, v, hm⟩ := Machine.exists_mans hcoh hi hb
    exact absurd hm.slot (hnil k s)
  · simp [hfresh.window]
  · rw [hcount]
    exact Nat.zero_le _
  · rw [hfresh.window]
    rfl
  · rw [hfresh.window, hfresh.capacity, hregisters]
    exact ⟨hcapacity, Nat.succ_pos _⟩
  · omega
  · rw [hcycle]
    unfold Machine.pace
    omega
  · rw [hcount]
    simp

namespace Session

namespace Reached

theorem onTrack (h : Reached config code trace s) : OnTrack config code s := by
  induction h with
  | load configured loaded => exact configured ▸ .of_load loaded
  | step _ stepped ih => exact ih.step stepped

theorem lt_of_incomplete (hc : config.Admitted) (h : Reached config code trace s)
    (hs : s.isComplete = false) : s.machine.commits.toList.length < code.length := by
  have hcoh := h.coherent hc
  have hle := hcoh.order.commits_le
  have hpc := hcoh.order.pc_le
  have hne : s.machine.commits.toList.length ≠ code.length := by
    rw [Ne, ← (h.finished hc).complete_iff, ← isComplete, hs]
    simp
  omega

theorem timely (hc : config.Admitted) (hunits : ∀ i ∈ code, 1 ≤ config.stations i.opcode.unit)
    (h : Reached config code trace s) : Timely code.length s.machine := by
  induction h with
  | load hconfig hload =>
    obtain ⟨-, m, hm, he⟩ := load_eq hconfig hload
    rw [he]
    exact (Machine.timely_of_initial hc hm).of_core m.sameCore_drained rfl
  | @step trace s s' earlier hstep ih =>
    rcases step_eq hstep with ⟨-, rfl⟩ | ⟨hcomplete, m, hm, he⟩
    · exact ih
    · have hlt := earlier.lt_of_incomplete hc hcomplete
      rw [he]
      refine (ih.cycle (earlier.coherent hc) hlt (fun i hi => ?_) hm).of_core m.sameCore_drained rfl
      rw [← List.one_le_count_iff, (earlier.equipped hc).stations]
      exact hunits i hi

/-- A step from a session that is not complete succeeds unless it ends in an arithmetic fault. -/
theorem step_of_incomplete (hc : config.Admitted) (h : Reached config code trace s)
    (hs : s.isComplete = false) : (∃ s', s.step = .ok (s', .ok ()) ∧
      s'.machine.cycle = s.machine.cycle + 1) ∨ ∃ s' f, s.step = .ok (s', .error (.arithmetic f)) := by
  unfold Session.step
  rw [if_neg (by simp [hs])]
  rcases ((h.coherent hc).confined (h.provided hc)).runCycle_sound.exists_ok with ⟨m, hm⟩ | ⟨f, hf⟩
  · have hcycle : m.cycle = s.machine.cycle + 1 := Machine.cycle_runCycle hm
    exact .inl ⟨_, by rw [hm], hcycle⟩
  · exact .inr ⟨_, f, by rw [hf]⟩

/-- With so few cycles between the commits, the run is complete before long. -/
theorem cycle_lt (hc : config.Admitted) (hunits : ∀ i ∈ code, 1 ≤ config.stations i.opcode.unit)
    (h : Reached config code trace s) (hs : s.isComplete = false) :
    s.machine.cycle < code.length * s.machine.pace := by
  have ht := h.timely hc hunits
  have hlt := h.lt_of_incomplete hc hs
  have hprevious : ∀ p ≤ s.machine.commits.toList.length,
      s.machine.previousCommit p ≤ p * s.machine.pace := by
    intro p
    induction p with
    | zero => exact fun _ => Nat.zero_le _
    | succ p ih =>
      intro hp
      obtain ⟨c, hc, hle⟩ := ht.spaced p hp
      rw [Machine.previousCommit, hc, Option.getD_some, Nat.succ_mul]
      exact Nat.le_trans hle (Nat.add_le_add_right (ih (Nat.le_of_succ_le hp)) _)
  calc s.machine.cycle
      < s.machine.previousCommit s.machine.commits.toList.length + s.machine.pace := ht.soon hlt
    _ ≤ s.machine.commits.toList.length * s.machine.pace + s.machine.pace :=
        Nat.add_le_add_right (hprevious _ (Nat.le_refl _)) _
    _ = (s.machine.commits.toList.length + 1) * s.machine.pace := (Nat.succ_mul _ _).symm
    _ ≤ code.length * s.machine.pace := Nat.mul_le_mul_right _ hlt

end Reached

/-- So many steps, or fewer, end the run: it is complete, or a step fails with an arithmetic fault. -/
inductive Ends : Nat → Session → Prop
  | complete {n : Nat} {s : Session} (complete : s.isComplete = true) : Ends n s
  | fault {n : Nat} {s s' : Session} {f : Fault} (incomplete : s.isComplete = false)
      (stepped : s.step = .ok (s', .error (.arithmetic f))) : Ends (n + 1) s
  | step {n : Nat} {s s' : Session} (incomplete : s.isComplete = false) (stepped : s.step = .ok (s', .ok ()))
      (rest : Ends n s') : Ends (n + 1) s

namespace Ends

variable {n : Nat}

theorem stepMany (h : Ends n s) : ∃ s' answer, s.stepMany n = .ok (s', answer) ∧
    (answer = .ok () ∧ s'.isComplete = true ∨ ∃ f, answer = .error (.arithmetic f)) := by
  induction h with
  | @complete n s complete =>
    refine ⟨s, .ok (), ?_, .inl ⟨rfl, complete⟩⟩
    cases n <;> simp [Session.stepMany, complete]
  | @fault n s s' f incomplete stepped =>
    exact ⟨s', _, by simp [Session.stepMany, incomplete, stepped, bind, Except.bind, pure, Except.pure],
      .inr ⟨f, rfl⟩⟩
  | step incomplete stepped _ ih =>
    obtain ⟨last, answer, hlast, hanswer⟩ := ih
    exact ⟨last, answer, by simp [Session.stepMany, incomplete, stepped, bind, Except.bind, hlast], hanswer⟩

theorem runWithin (h : Ends n s) : ∃ s' answer, s.runWithin n = .ok (s', answer) ∧
    (answer = .ok s'.cyclesRun ∧ s'.isComplete = true ∨ ∃ f, answer = .error (.arithmetic f)) := by
  induction h with
  | @complete n s complete =>
    exact ⟨s, .ok s.cyclesRun, runWithin_of_complete complete n, .inl ⟨rfl, complete⟩⟩
  | @fault n s s' f incomplete stepped =>
    exact ⟨s', _, by rw [runWithin_succ incomplete, stepped]; rfl, .inr ⟨f, rfl⟩⟩
  | step incomplete stepped _ ih =>
    obtain ⟨last, answer, hlast, hanswer⟩ := ih
    exact ⟨last, answer, by rw [runWithin_succ incomplete, stepped]; exact hlast, hanswer⟩

end Ends

theorem Reached.ends (hc : config.Admitted) (hunits : ∀ i ∈ code, 1 ≤ config.stations i.opcode.unit)
    (h : Reached config code trace s) {n : Nat} (hn : code.length * s.machine.pace ≤ s.machine.cycle + n) :
    Ends n s := by
  induction n generalizing s trace with
  | zero =>
    cases hs : s.isComplete with
    | true => exact .complete hs
    | false => exact absurd (h.cycle_lt hc hunits hs) (by omega)
  | succ n ih =>
    cases hs : s.isComplete with
    | true => exact .complete hs
    | false =>
      rcases h.step_of_incomplete hc hs with ⟨s', stepped, hcycle⟩ | ⟨s', f, stepped⟩
      · have hreached := h.step stepped
        have hpace : s'.machine.pace = s.machine.pace :=
          Machine.pace_of_capacity ((hreached.equipped hc).slots.trans (h.equipped hc).slots.symm)
        exact .step hs stepped (ih hreached (by rw [hpace, hcycle]; omega))
      · exact .fault hs stepped

end Session

/-- No deadlock and no livelock. From one commit to the next it takes at most `max 8 robCapacity` cycles, so
that stepping until completion ends, and a run that may take so many cycles for each instruction is never
interrupted. -/
theorem run_ends_in_time (hc : config.Admitted)
    (hunits : ∀ i ∈ code, 1 ≤ config.stations i.opcode.unit) (h : Session.Reached config code trace s) :
    let m := s.machine
    let pace := max 8 config.robCapacity.toNat
    (∀ p < m.counters.committed, ∃ c, m.commitTime p = some c ∧ c ≤ m.previousCommit p + pace) ∧
    (s.isComplete = false → m.counters.committed < code.length ∧
      m.cycle < m.previousCommit m.counters.committed + pace) ∧
    (∀ n, code.length * pace ≤ m.cycle + n → ∃ s' answer, s.stepMany n = .ok (s', answer) ∧
      (answer = .ok () ∧ s'.isComplete = true ∨ ∃ f, answer = .error (.arithmetic f))) ∧
    (code.length * pace ≤ config.maxCycles.toNat → ∃ s' answer, s.run = .ok (s', answer) ∧
      (answer = .ok s'.cyclesRun ∧ s'.isComplete = true ∨ ∃ f, answer = .error (.arithmetic f))) := by
  intro m pace
  have ht : Timely code.length m := h.timely hc hunits
  have hpace : m.pace = pace := by rw [Machine.pace, (h.equipped hc).slots]
  have hcount : m.counters.committed = m.commits.toList.length := (h.finished hc).counted
  rw [hcount, ← hpace]
  refine ⟨ht.spaced, fun hs => ?_, fun n hn => (h.ends hc hunits hn).stepMany, fun hmax => ?_⟩
  · have hlt := h.lt_of_incomplete hc hs
    exact ⟨hlt, ht.soon hlt⟩
  · refine (h.ends hc hunits ?_).runWithin
    rw [h.onTrack.config_eq]
    have hm : code.length * m.pace ≤ config.maxCycles.toNat := hmax
    show code.length * m.pace ≤ m.cycle + (config.maxCycles.toNat - m.cycle)
    omega

/-- Two slots and two registers: in the fifth cycle the branch has committed, behind it the cancelled slot of
the addition is in front, and twice eight cycles are enough. -/
theorem run_ends_in_time_branch : ∃ (config : Config) (code : List Instruction) (trace : List Deed)
    (s : Session), config.Admitted ∧ Session.Reached config code trace s ∧
      s.machine.counters.squashed = 1 ∧ lead s.machine.rob.window = 1 ∧
      (∃ c, s.machine.commitTime 0 = some c ∧ c ≤ 8) ∧ config.maxCycles = 16 ∧
      ∃ s' answer, s.run = .ok (s', answer) ∧
        (answer = .ok s'.cyclesRun ∧ s'.isComplete = true ∨ ∃ f, answer = .error (.arithmetic f)) := by
  let branch : Instruction := ⟨.beq, none, ⟨0⟩, some ⟨0⟩, 1, []⟩
  let add : Instruction := ⟨.add, some ⟨1⟩, ⟨2⟩, some ⟨3⟩, 0, []⟩
  let config : Config := { Config.standard with
    robCapacity := 2, addStations := 1, mulStations := 0, loadStoreStations := 0, highestPhys := 1
    maxCycles := 16, memorySize := 0 }
  have hadmitted : config.Admitted := ⟨by decide, by decide, by decide⟩
  have hunits : ∀ i ∈ [branch, add], 1 ≤ config.stations i.opcode.unit := by decide
  have hrun : ∃ r ∈ Session.tracedRun config [branch, add] 5, r.2.machine.counters.squashed = 1 ∧
      r.2.machine.counters.committed = 1 ∧ lead r.2.machine.rob.window = 1 := by
    decide +kernel
  obtain ⟨⟨trace, s⟩, hr, hsquashed, hcommitted, hlead⟩ := hrun
  have hreached := Session.Reached.of_tracedRun hr
  obtain ⟨hspaced, -, -, hends⟩ := run_ends_in_time hadmitted hunits hreached
  exact ⟨config, _, trace, s, hadmitted, hreached, hsquashed, hlead,
    hspaced 0 (by rw [show s.machine.counters.committed = 1 from hcommitted]; exact Nat.one_pos), rfl,
    hends (by decide)⟩

end Runs

end OutOfOrder
