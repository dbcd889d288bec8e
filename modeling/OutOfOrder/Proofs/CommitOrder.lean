import OutOfOrder.Proofs.Run

/-!
Every instruction of the program commits once, in program order, and the machine is complete when the last
one has.
-/

set_option autoImplicit false

namespace OutOfOrder

section Committed

variable {code : List Instruction} {m m' : Machine}

/-- What a move does to the list of the committed and to their versions. -/
structure Extends (m m' : Machine) (added : List InstanceId) : Prop where
  commits : m'.commits.toList = m.commits.toList ++ added
  counted : m'.counters.committed = m.counters.committed + added.length
  kept : ∀ p, p < m.commits.toList.length → m'.fetch.current? p = m.fetch.current? p
  stamped : ∀ p, m.commits.toList.length ≤ p → p < m'.commits.toList.length →
    ∃ v, m'.fetch.current? p = some v ∧ v.times.commit = some m.cycle

theorem Extends.of_none (hcommits : m'.commits = m.commits)
    (hcounted : m'.counters.committed = m.counters.committed)
    (hkept : ∀ p, p < m.commits.toList.length → m'.fetch.current? p = m.fetch.current? p) :
    Extends m m' [] where
  commits := by rw [hcommits, List.append_nil]
  counted := hcounted
  kept := hkept
  stamped := by
    intro p hle hlt
    rw [hcommits] at hlt
    omega

theorem Coherent.extends_of_move (h : Coherent code m) {d : List Deed} (hm : m.Move d m') :
    ∃ added, Extends m m' added := by
  -- whatever moves a version beyond the committed ones leaves those alone
  have hkept : ∀ (v : Instance) (stage : Stage) (times : Times),
      m.fetch.current? v.id.position = some v → m.commits.toList.length ≤ v.id.position →
      ∀ p, p < m.commits.toList.length →
        (m.fetch.modify v.id (Sequenced.moved stage times)).current? p = m.fetch.current? p := by
    intro v stage times hv hc p hp
    rw [Fetch.current?_modify h.order.orderly hv, if_neg (by omega)]
  cases h.change hm
  case compute done | complete done =>
    exact ⟨[], .of_none rfl rfl (hkept _ _ _ done.current done.uncommitted)⟩
  case squash done =>
    refine ⟨[], .of_none rfl rfl fun p hp => ?_⟩
    have hn := Nat.lt_asymm (Nat.lt_of_lt_of_le hp done.uncommitted)
    dsimp only
    rw [Fetch.current?_renewAfter h.order.orderly]
    simp [hn]
  case issue done =>
    have hle := h.order.commits_le
    have hposition := done.position
    exact ⟨[], .of_none rfl rfl (hkept _ _ _ done.current (by omega))⟩
  case commit done =>
    have hposition := done.position
    refine ⟨[_], Array.toList_push, rfl, hkept _ _ _ done.current (by omega), fun p hle hlt => ?_⟩
    simp only [Array.toList_push, List.length_append, List.length_singleton] at hlt
    dsimp only
    rw [Fetch.current?_modify h.order.orderly done.current, if_pos (by omega)]
    exact ⟨_, rfl, rfl⟩
  case wait | start | restart | countdown | stall | discard => exact ⟨[], .of_none rfl rfl fun _ _ => rfl⟩

theorem Coherent.extends_of_moves (h : Coherent code m) {ds : List Deed} (hm : m.Moves ds m') :
    ∃ added, Extends m m' added := by
  induction hm with
  | refl m => exact ⟨[], .of_none rfl rfl fun _ _ => rfl⟩
  | @step m middle m' d ds first rest ih =>
    obtain ⟨added, he⟩ := h.extends_of_move first
    obtain ⟨more, he'⟩ := ih (h.move first)
    have hcycle := first.steady.cycle
    refine ⟨added ++ more, ?_, ?_, ?_, ?_⟩
    · rw [he'.commits, he.commits, List.append_assoc]
    · rw [he'.counted, he.counted, List.length_append, Nat.add_assoc]
    · intro p hp
      rw [he'.kept p (by rw [he.commits, List.length_append]; omega), he.kept p hp]
    · intro p hle hlt
      by_cases hp : p < middle.commits.toList.length
      · rw [he'.kept p hp]
        exact he.stamped p hle hp
      · rw [← hcycle]
        exact he'.stamped p (by omega) hlt

end Committed

/-! ### Completion -/

section Completion

variable {code : List Instruction} {m m' : Machine}

theorem Coherent.isDone_iff (h : Coherent code m) :
    m.fetch.isDone = true ↔ m.commits.toList.length = code.length := by
  have hsize := h.order.orderly.size_eq
  have hle := h.order.commits_le
  have hpc := h.order.pc_le
  rw [Fetch.isDone, Array.all_eq_true']
  constructor
  · intro hall
    by_contra hne
    have hlt : m.commits.toList.length < code.length := by omega
    obtain ⟨v, hv⟩ := h.order.orderly.exists_current hlt
    obtain ⟨hist, hh, rfl⟩ := Fetch.exists_history hv
    have hfinal := hall hist (Array.mem_of_getElem? hh)
    by_cases hc : m.commits.toList.length < m.fetch.pc
    · obtain ⟨s, hs, hl, ho⟩ := h.order.exists_live (Nat.le_refl _) hc
      have hpos := h.order.orderly.position_current hv
      rw [Fetch.idAt, hv, Option.map_some] at ho
      have hst := h.order.stage_of_live hs hl ho (by rw [Instance.id, hpos, hv])
      split at hst
      · simp [hst, Stage.isFinal] at hfinal
      · rcases hst with hst | hst <;> simp [hst, Stage.isFinal] at hfinal
    · have hst := h.order.waiting _ _ (by omega) hv
      simp [hst, Stage.isFinal] at hfinal
  · intro hlen hist hm
    obtain ⟨p, hp, rfl⟩ := Array.mem_iff_getElem.1 hm
    have hst := h.order.committed p m.fetch.histories[p].current (by omega) (by simp [Fetch.current?, hp])
    rw [hst]
    rfl

/-- Nothing is left in flight when everything has committed. -/
theorem Coherent.window_of_done (h : Coherent code m) (hd : m.commits.toList.length = code.length) :
    m.rob.window = [] := by
  have hle := h.order.commits_le
  have hpc := h.order.pc_le
  have hlive := h.order.live_eq
  rw [show m.fetch.pc - m.commits.toList.length = 0 by omega] at hlive
  rcases h.order.youngest with hlt | hy
  · omega
  · cases hw : m.rob.window.getLast? with
    | none => exact List.getLast?_eq_none_iff.1 hw
    | some s =>
      have hm : s.occupant ∈ (m.rob.window.filter Slot.isLive).map Slot.occupant :=
        List.mem_map_of_mem (List.mem_filter.2 ⟨List.mem_of_getLast? hw, hy s hw⟩)
      rw [hlive] at hm
      simp at hm

theorem Coherent.settle_eq (h : Coherent code m) (hf : m.finishedAt = none) :
    m.settle.finishedAt =
      if m.commits.toList.length = code.length then some m.cycle else none := by
  unfold Machine.settle
  by_cases hd : m.commits.toList.length = code.length
  · have he : m.rob.isEmpty = true := by
      rw [h.ring.isEmpty_eq, h.window_of_done hd]
      rfl
    rw [if_pos hd, if_pos (by rw [h.isDone_iff.2 hd, he]; rfl)]
    rfl
  · have hn : (m.fetch.isDone && m.rob.isEmpty) = false := by
      rw [Bool.and_eq_false_iff]
      left
      rw [← Bool.not_eq_true, h.isDone_iff]
      exact hd
    rw [if_neg hd, if_neg (by simp [hn]), hf]

/-- Between two cycles. -/
structure Finished (code : List Instruction) (m : Machine) : Prop where
  complete_iff : m.isComplete = true ↔ m.commits.toList.length = code.length
  counted : m.counters.committed = m.commits.toList.length
  time : ∀ c, m.finishedAt = some c → code = [] ∧ c = 0 ∨
    ∃ v, m.fetch.current? (code.length - 1) = some v ∧ v.times.commit = some c

theorem finished_initial {config : Config} (hc : config.Admitted)
    (h : Machine.initial config code = .ok m) : Finished code m.takeEvents.2 := by
  have hcoh := Coherent.initial hc h
  obtain ⟨rob, hr, rfl⟩ := Machine.initial_eq h
  obtain ⟨hring, hw⟩ := ReorderBuffer.contiguous_ofCapacity hc.capacity_le hr
  let start : Machine :=
    { fetch := .ofCode code, registers := Machine.initialRegisters config
      physical := .ofCount config.physCount, aliases := .empty, rob
      stations := .ofCounts config.stations, memory := Machine.initialMemory config
      counters := .zero, finishedAt := none, commits := #[], events := #[] }
  change Coherent code start.settle at hcoh
  have hs := Machine.sameCore_settle start
  have hstart : Coherent code start :=
    hcoh.of_eq hs.rob.symm hs.fetch.symm hs.commits.symm (Nat.le_of_eq (Machine.cycle_settle start))
      hs.physical.symm hs.registers.symm hs.stations.symm
  have hf := hstart.settle_eq rfl
  have hcommits : start.settle.commits.toList.length = 0 := by rw [hs.commits]; rfl
  constructor
  · show start.settle.finishedAt.isSome = true ↔ start.settle.commits.toList.length = code.length
    rw [hf, hcommits]
    show (if 0 = code.length then some 0 else none : Option Nat).isSome = true ↔ _
    split <;> simp_all
  · show start.settle.counters.committed = start.settle.commits.toList.length
    rw [hcommits, Machine.counters_settle]
    rfl
  · intro c hfin
    change start.settle.finishedAt = some c at hfin
    rw [hf] at hfin
    split at hfin
    · next hlen =>
      left
      have hz : 0 = code.length := hlen
      exact ⟨List.length_eq_zero_iff.1 hz.symm, (Option.some.inj hfin).symm⟩
    · simp at hfin

theorem Finished.cycle (h : Finished code m) (hcoh : Coherent code m) (hincomplete : m.isComplete = false)
    (hm : m.runCycle = .ok m') : Finished code m'.takeEvents.2 := by
  obtain ⟨last, hmoves, rfl⟩ := Machine.runCycle_moves hcoh hm
  have hlast := hcoh.tick.moves hmoves
  have hsteady := hmoves.steady
  obtain ⟨added, hadded⟩ := hcoh.tick.extends_of_moves hmoves
  have hnone : last.finishedAt = none := by
    rw [hsteady.finishedAt]
    show m.finishedAt = none
    rwa [Machine.isComplete, Option.isSome_eq_false_iff, Option.isNone_iff_eq_none] at hincomplete
  have hf := hlast.settle_eq hnone
  have hs := last.sameCore_settle
  have hlt : m.commits.toList.length < code.length := by
    have hle := hcoh.order.commits_le
    have hpc := hcoh.order.pc_le
    have hne : m.commits.toList.length ≠ code.length := by
      rw [Ne, ← h.complete_iff, hincomplete]
      simp
    omega
  constructor
  · show last.settle.finishedAt.isSome = true ↔ last.settle.commits.toList.length = code.length
    rw [hf, hs.commits]
    split <;> simp_all
  · show last.settle.counters.committed = last.settle.commits.toList.length
    rw [Machine.counters_settle, hs.commits, hadded.counted, hadded.commits, List.length_append]
    show m.counters.committed + _ = m.commits.toList.length + _
    rw [h.counted]
  · intro c hfin
    change last.settle.finishedAt = some c at hfin
    rw [hf] at hfin
    split at hfin
    · next hlen =>
      right
      obtain rfl := Option.some.inj hfin
      have hbefore : m.tick.commits.toList.length ≤ code.length - 1 := by
        show m.commits.toList.length ≤ _
        omega
      obtain ⟨v, hv, htime⟩ := hadded.stamped (code.length - 1) hbefore (by omega)
      refine ⟨v, ?_, by rw [htime, hsteady.cycle]⟩
      show last.settle.fetch.current? _ = _
      rw [hs.fetch, hv]
    · simp at hfin

theorem Session.Reached.finished {config : Config} {trace : List Deed} {s : Session}
    (hc : config.Admitted) (h : Session.Reached config code trace s) : Finished code s.machine := by
  induction h with
  | load hconfig hload =>
    obtain ⟨-, m, hm, he⟩ := Session.load_eq hconfig hload
    rw [he]
    exact finished_initial hc hm
  | step earlier hstep ih =>
    rcases Session.step_eq hstep with ⟨-, rfl⟩ | ⟨hcomplete, m, hm, he⟩
    · exact ih
    · rw [he]
      exact ih.cycle (earlier.coherent hc) hcomplete hm

end Completion

/-! ### The order of the commits -/

theorem Coherent.committedPositions_eq {code : List Instruction} {m : Machine} (h : Coherent code m) :
    m.committedPositions = List.range m.commits.toList.length := by
  have hle := h.order.commits_le
  have hpc := h.order.pc_le
  have hposition : ∀ p ∈ List.range m.commits.toList.length,
      ((m.fetch.idAt p).map InstanceId.position).getD 0 = p := by
    intro p hp
    rw [List.mem_range] at hp
    obtain ⟨v, -, hv, hpos⟩ := h.order.idAt_eq (show p < code.length by omega)
    rw [hv]
    exact hpos
  have hc := congrArg (List.map fun o : Option InstanceId => (o.map InstanceId.position).getD 0)
    h.order.commits_eq
  rw [List.map_map, List.map_map] at hc
  calc m.committedPositions
      = m.commits.toList.map ((fun o : Option InstanceId => (o.map InstanceId.position).getD 0) ∘ some) := rfl
    _ = (List.range m.commits.toList.length).map
          ((fun o : Option InstanceId => (o.map InstanceId.position).getD 0) ∘ m.fetch.idAt) := hc
    _ = (List.range m.commits.toList.length).map id := List.map_congr_left hposition
    _ = List.range m.commits.toList.length := List.map_id _

/-- The stage of a position can be read off where it lies. -/
theorem Coherent.stage_eq {code : List Instruction} {m : Machine} (h : Coherent code m) {p : Nat}
    {v : Instance} (hv : m.fetch.current? p = some v) :
    (p < m.commits.toList.length → v.stage = .committed) ∧
    (m.commits.toList.length ≤ p → p < m.fetch.pc →
      v.stage = .issued ∨ v.stage = .executed ∨ v.stage = .written) ∧
    (m.fetch.pc ≤ p → v.stage = .unissued) := by
  refine ⟨fun hp => h.order.committed p v hp hv, fun hc hp => ?_, fun hp => h.order.waiting p v hp hv⟩
  obtain ⟨s, hs, hl, ho⟩ := h.order.exists_live hc hp
  have hpos := h.order.orderly.position_current hv
  rw [Fetch.idAt, hv, Option.map_some] at ho
  have hst := h.order.stage_of_live hs hl ho (by rw [Instance.id, hpos, hv])
  split at hst
  · exact .inr (.inr hst)
  · exact hst.imp_right .inl

/-- `window` lists the busy slots of the ring from the head on, and misses none. -/
theorem Coherent.mem_window_of_busy {code : List Instruction} {m : Machine} (h : Coherent code m)
    {s : Slot} (hs : s ∈ m.rob.slots) (hb : s.busy = true) : s ∈ m.rob.window := by
  obtain ⟨i, hi, rfl⟩ := Array.mem_iff_getElem.1 hs
  obtain ⟨k, hk, hplace⟩ := ReorderBuffer.exists_place hi
  have hnth : m.rob.nth k = m.rob.slots[i] := by simp only [ReorderBuffer.nth, hplace]
  have hbusy := h.ring.busy_nth k hk
  rw [hnth, hb] at hbusy
  rw [← hnth]
  exact List.mem_of_getElem? (h.ring.getElem?_window (of_decide_eq_true hbusy.symm))

/-- Exactly once and in order: with `c` commits behind it and the cursor at `pc`, the machine has committed
the positions below `c`, has those up to `pc` in flight in this order, and has yet to issue the rest. -/
theorem commits_in_order {config : Config} {code : List Instruction} {trace : List Deed} {s : Session}
    (hc : config.Admitted) (h : Session.Reached config code trace s) :
    let m := s.machine
    let c := m.counters.committed
    m.committedPositions = List.range c ∧
    m.commits.toList.map some = (List.range c).map m.fetch.idAt ∧
    (∀ slot ∈ m.rob.slots, slot.busy = true → slot ∈ m.rob.window) ∧
    (∀ slot ∈ m.rob.window, slot.busy = true) ∧
    (m.rob.window.filter Slot.isLive).map Slot.occupant =
      (List.range' c (m.fetch.pc - c)).map m.fetch.idAt ∧
    (∀ slot ∈ m.rob.window, slot.isLive = false →
      ∃ id v, slot.occupant = some id ∧ m.fetch.get? id = some v ∧ v.stage = .squashed) ∧
    (∀ p < code.length, ∃ v, m.fetch.current? p = some v ∧
      (p < c → v.stage = .committed) ∧
      (c ≤ p → p < m.fetch.pc → v.stage = .issued ∨ v.stage = .executed ∨ v.stage = .written) ∧
      (m.fetch.pc ≤ p → v.stage = .unissued)) ∧
    (m.isComplete = true ↔ c = code.length) ∧
    ∀ cycles, m.finishedAt = some cycles → m.rob.isEmpty = true ∧
      (code = [] ∧ cycles = 0 ∨
        ∃ v, m.fetch.current? (code.length - 1) = some v ∧ v.times.commit = some cycles) := by
  intro m c
  have hcoh : Coherent code m := h.coherent hc
  have hfin : Finished code m := h.finished hc
  have hcount : c = m.commits.toList.length := hfin.counted
  rw [hcount]
  refine ⟨hcoh.committedPositions_eq, hcoh.order.commits_eq, fun _ => hcoh.mem_window_of_busy,
    fun _ => hcoh.ring.busy_of_mem, hcoh.order.live_eq, hcoh.order.cancelled, fun p hp => ?_,
    hfin.complete_iff, fun cycles hcycles => ⟨?_, hfin.time cycles hcycles⟩⟩
  · obtain ⟨v, hv⟩ := hcoh.order.orderly.exists_current hp
    exact ⟨v, hv, hcoh.stage_eq hv⟩
  · have hd : m.commits.toList.length = code.length := by
      rw [← hfin.complete_iff, Machine.isComplete, hcycles]
      rfl
    rw [hcoh.ring.isEmpty_eq, hcoh.window_of_done hd]
    rfl

/-- A branch to the next instruction is taken in the fourth cycle, and that instruction issued again. After the fifth
the branch has committed, and the cancelled slot is still in flight before the new version. After the seventh all has
committed. -/
theorem commits_in_order_branch : ∃ (config : Config) (code : List Instruction) (trace trace' : List Deed)
    (s s' : Session), config.Admitted ∧ Session.Reached config code trace s ∧
      s.machine.counters.squashed = 1 ∧ s.machine.committedPositions = [0] ∧
      s.machine.rob.window.map Slot.isLive = [false, true] ∧
      (s.machine.rob.window.filter Slot.isLive).map Slot.occupant = [s.machine.fetch.idAt 1] ∧
      (∀ slot ∈ s.machine.rob.window, slot.isLive = false →
        ∃ id v, slot.occupant = some id ∧ s.machine.fetch.get? id = some v ∧ v.stage = .squashed) ∧
      Session.Reached config code trace' s' ∧ s'.machine.isComplete = true ∧
      s'.machine.committedPositions = [0, 1] ∧ s'.machine.finishedAt = some 7 ∧
      s'.machine.rob.isEmpty = true ∧
      ∃ v, s'.machine.fetch.current? 1 = some v ∧ v.stage = .committed ∧ v.times.commit = some 7 := by
  let branch : Instruction := ⟨.beq, none, ⟨0⟩, some ⟨0⟩, 1, []⟩
  let add : Instruction := ⟨.add, some ⟨1⟩, ⟨2⟩, some ⟨3⟩, 0, []⟩
  let config : Config := { Config.standard with memorySize := 0 }
  have hadmitted : config.Admitted := ⟨by decide, by decide, by decide⟩
  have hrun : ∃ r ∈ Session.tracedRun config [branch, add] 5, r.2.machine.counters.squashed = 1 ∧
      r.2.machine.counters.committed = 1 ∧ r.2.machine.fetch.pc = 2 ∧
      r.2.machine.rob.window.map Slot.isLive = [false, true] := by
    decide +kernel
  have hend : ∃ r ∈ Session.tracedRun config [branch, add] 7, r.2.machine.counters.committed = 2 ∧
      r.2.machine.finishedAt = some 7 := by
    decide +kernel
  obtain ⟨⟨trace, s⟩, hr, hsquashed, hcount, hpc, hwindow⟩ := hrun
  obtain ⟨⟨trace', s'⟩, hr', hcount', hfinished⟩ := hend
  change s.machine.counters.committed = 1 at hcount
  change s.machine.fetch.pc = 2 at hpc
  change s'.machine.counters.committed = 2 at hcount'
  have hreached := Session.Reached.of_tracedRun hr
  have hreached' := Session.Reached.of_tracedRun hr'
  obtain ⟨hpositions, -, -, -, hlive, hcancelled, -⟩ := commits_in_order hadmitted hreached
  obtain ⟨hpositions', -, -, -, -, -, hstages, hcomplete, hend⟩ := commits_in_order hadmitted hreached'
  simp only [hcount, hpc] at hpositions hlive
  simp only [hcount'] at hpositions' hstages hcomplete
  obtain ⟨v, hv, hcommitted, -⟩ := hstages 1 (by decide)
  obtain ⟨hempty, hnone | ⟨w, hw, htime⟩⟩ := hend 7 hfinished
  · simp at hnone
  · obtain rfl : v = w := Option.some.inj (hv.symm.trans hw)
    exact ⟨config, _, trace, trace', s, s', hadmitted, hreached, hsquashed, hpositions, hwindow, hlive, hcancelled,
      hreached', hcomplete.2 rfl, hpositions', hfinished, hempty, v, hv, hcommitted (by decide), htime⟩

end OutOfOrder
