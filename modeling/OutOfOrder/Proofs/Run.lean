import OutOfOrder.Proofs.Manning
import OutOfOrder.Proofs.Phases
import OutOfOrder.Session.Loop

/-!
The sessions that a loaded program reaches by steps, each with the trace of what happened on the way.
-/

set_option autoImplicit false

namespace OutOfOrder

/-- No sum of slot or register numbers wraps. -/
structure Config.Admitted (config : Config) : Prop where
  capacity_pos : 1 ≤ config.robCapacity.toNat
  capacity_le : config.robCapacity.toNat ≤ 32768
  highestPhys_le : config.highestPhys.toNat ≤ 65534

/-- Loaded under the configuration, and stepped without a failure since. -/
inductive Session.Reached (config : Config) (code : List Instruction) : List Deed → Session → Prop
  | load {before s : Session} (configured : before.config = config)
      (loaded : before.load code = .ok (s, .ok ())) : Reached config code [] s
  | step {trace : List Deed} {s s' : Session} (earlier : Reached config code trace s)
      (stepped : s.step = .ok (s', .ok ())) : Reached config code (trace ++ s.deeds) s'

/-- The machines differ in their clocks and in what they report, if at all. -/
structure SameCore (m m' : Machine) : Prop where
  fetch : m'.fetch = m.fetch
  registers : m'.registers = m.registers
  physical : m'.physical = m.physical
  aliases : m'.aliases = m.aliases
  rob : m'.rob = m.rob
  stations : m'.stations = m.stations
  memory : m'.memory = m.memory
  commits : m'.commits = m.commits

/-- Of the counters too they differ in the clock alone. -/
structure SameCounts (m m' : Machine) : Prop extends SameCore m m' where
  counters : m'.counters = { m.counters with cycles := m'.counters.cycles }

namespace Machine

theorem sameCore_tick (m : Machine) : SameCore m m.tick := ⟨rfl, rfl, rfl, rfl, rfl, rfl, rfl, rfl⟩

theorem sameCore_settle (m : Machine) : SameCore m m.settle := by
  unfold settle
  split <;> exact ⟨rfl, rfl, rfl, rfl, rfl, rfl, rfl, rfl⟩

theorem sameCore_drained (m : Machine) : SameCore m m.takeEvents.2 :=
  ⟨rfl, rfl, rfl, rfl, rfl, rfl, rfl, rfl⟩

theorem sameCounts_tick (m : Machine) : SameCounts m m.tick := ⟨m.sameCore_tick, rfl⟩

theorem sameCounts_settle (m : Machine) : SameCounts m m.settle :=
  ⟨m.sameCore_settle, by rw [counters_settle]⟩

theorem sameCounts_drained (m : Machine) : SameCounts m m.takeEvents.2 := ⟨m.sameCore_drained, rfl⟩

theorem Mans.of_core {m m' : Machine} (hcore : SameCore m m') {i k : Nat} {st : Station} {s : Slot}
    {v : Instance} (hm : m'.Mans i st k s v) : m.Mans i st k s v where
  slot := hcore.rob ▸ hm.slot
  pending := hm.pending
  occupant := hm.occupant
  current := hcore.fetch ▸ hm.current
  uncommitted := hcore.commits ▸ hm.uncommitted
  issued := hcore.fetch ▸ hm.issued
  station := hcore.stations ▸ hm.station
  busy := hm.busy
  named := hm.named

/-- The architectural registers before the first cycle. -/
def initialRegisters (config : Config) : RegisterFile :=
  config.initialRegisters.toList.foldl (fun file (name, value) => file.preset name.toList value)
    (RegisterFile.ofCount config.archCount)

def initialMemory (config : Config) : Memory :=
  .ofSeeds config.memorySize.toNat config.memoryStride.toNat

theorem initial_eq {config : Config} {code : List Instruction} {m : Machine}
    (h : initial config code = .ok m) : ∃ rob, ReorderBuffer.ofCapacity config.robCapacity.toNat = .ok rob ∧
      m = settle
        { fetch := .ofCode code, registers := initialRegisters config, physical := .ofCount config.physCount
          aliases := .empty, rob, stations := .ofCounts config.stations, memory := initialMemory config
          counters := .zero, finishedAt := none, commits := #[], events := #[] } := by
  simp only [initial, bind_eq_ok_iff, pure_eq_ok_iff] at h
  obtain ⟨rob, hr, rfl⟩ := h
  exact ⟨rob, hr, rfl⟩

end Machine

/-- Nothing has happened yet. -/
structure Machine.Fresh (config : Config) (code : List Instruction) (m : Machine) : Prop where
  window : m.rob.window = []
  capacity : m.rob.capacity = config.robCapacity.toNat
  fetch : m.fetch = .ofCode code
  registers : m.registers = initialRegisters config
  physical : m.physical = .ofCount config.physCount
  stations : m.stations = .ofCounts config.stations
  commits : m.commits = #[]
  counters : m.counters = .zero

namespace Machine.Fresh

variable {config : Config} {code : List Instruction} {m : Machine}

theorem cycle_eq (h : m.Fresh config code) : m.cycle = 0 := by
  rw [cycle, h.counters]
  rfl

theorem pc_eq (h : m.Fresh config code) : m.fetch.pc = 0 := by
  rw [h.fetch]
  rfl

theorem length_commits (h : m.Fresh config code) : m.commits.toList.length = 0 := by
  rw [h.commits]
  rfl

end Machine.Fresh

theorem Machine.fresh_of_initial {config : Config} {code : List Instruction} {m : Machine}
    (hc : config.Admitted) (h : Machine.initial config code = .ok m) : Fresh config code m := by
  obtain ⟨rob, hr, rfl⟩ := Machine.initial_eq h
  have hcapacity : rob.capacity = config.robCapacity.toNat := by
    unfold ReorderBuffer.ofCapacity at hr
    split at hr
    · obtain rfl := Except.ok.inj hr
      simp [ReorderBuffer.capacity]
    · simp at hr
  have hw := (ReorderBuffer.contiguous_ofCapacity hc.capacity_le hr).2
  unfold settle
  split <;> exact ⟨hw, hcapacity, rfl, rfl, rfl, rfl, rfl, rfl⟩

namespace Coherent

variable {config : Config} {code : List Instruction} {m : Machine}

theorem settle (h : Coherent code m) : Coherent code m.settle := by
  obtain ⟨hf, hr, hp, -, hb, hs, -, hc⟩ := m.sameCore_settle
  exact h.of_eq hb hf hc (Nat.le_of_eq (Machine.cycle_settle m).symm) hp hr hs

theorem drained (h : Coherent code m) : Coherent code m.takeEvents.2 :=
  h.of_eq rfl rfl rfl (Nat.le_refl _) rfl rfl rfl

theorem initial (hc : config.Admitted) (h : Machine.initial config code = .ok m) : Coherent code m := by
  obtain ⟨rob, hr, rfl⟩ := Machine.initial_eq h
  obtain ⟨hring, hw⟩ := ReorderBuffer.contiguous_ofCapacity hc.capacity_le hr
  refine settle
    { ring := hring, order := ?_, aged := ?_, results := ?_, count_le := ?_, tags := ?_, staffed := ?_ }
  · show Sequenced code (.ofCode code) rob.window []
    rw [hw]
    exact Sequenced.start code
  · show Aged _ rob.window
    rw [hw]
    exact ⟨by simp, .nil⟩
  · show ∀ s ∈ rob.window, _
    rw [hw]
    simp
  · simp only [PhysicalFile.ofCount, PhysicalFile.count, Array.size_replicate]
    exact Nat.le_of_lt (UInt16.toNat_lt _)
  · show Circulates rob.window _
    rw [hw]
    exact Circulates.start _
  · show Staffed _ rob.window _
    rw [hw]
    exact Staffed.idle _

end Coherent

namespace Session

variable {config : Config} {code : List Instruction} {s s' : Session} {trace : List Deed}

theorem load_eq {before : Session} (hconfig : before.config = config)
    (h : before.load code = .ok (s, .ok ())) : misfits config code = [] ∧
      ∃ m, Machine.initial config code = .ok m ∧ s.machine = m.takeEvents.2 := by
  unfold load at h
  rw [hconfig] at h
  split at h
  · next hm =>
    simp only [bind_eq_ok_iff, pure_eq_ok_iff, Prod.mk.injEq, reset] at h
    obtain ⟨fresh, ⟨m, hm', rfl⟩, rfl, -⟩ := h
    exact ⟨hm, m, hconfig ▸ hm', rfl⟩
  · simp [pure_eq_ok_iff] at h

namespace Reached

theorem coherent (hc : config.Admitted) (h : Reached config code trace s) : Coherent code s.machine := by
  induction h with
  | load hconfig hload =>
    obtain ⟨-, m, hm, he⟩ := load_eq hconfig hload
    rw [he]
    exact (Coherent.initial hc hm).drained
  | step _ hstep ih =>
    rcases step_eq hstep with ⟨-, rfl⟩ | ⟨-, m, hm, he⟩
    · exact ih
    · obtain ⟨last, hmoves, rfl⟩ := Machine.runCycle_moves ih hm
      rw [he]
      exact (ih.tick.moves hmoves).settle.drained

/-- What the start has and every move keeps, whatever the clocks and the reports say, a run keeps. -/
theorem keeps (hc : config.Admitted) (kept : List Deed → Machine → Prop)
    (start : ∀ m, Machine.initial config code = .ok m → kept [] m)
    (core : ∀ trace m m', SameCore m m' → kept trace m → kept trace m')
    (move : ∀ trace m d m', Coherent code m → kept trace m → m.Move d m' → kept (trace ++ d) m')
    (h : Reached config code trace s) : kept trace s.machine := by
  induction h with
  | load hconfig hload =>
    obtain ⟨-, m, hm, he⟩ := load_eq hconfig hload
    rw [he]
    exact core _ _ _ m.sameCore_drained (start m hm)
  | @step trace s s' earlier hstep ih =>
    rcases step_eq hstep with ⟨hcomplete, rfl⟩ | ⟨hcomplete, m, hm, he⟩
    · rw [Session.deeds, if_pos hcomplete, List.append_nil]
      exact ih
    · have hcoh := coherent hc earlier
      obtain ⟨last, hmoves, rfl⟩ := Machine.runCycle_moves hcoh hm
      have hboth := hmoves.keeps (fun trace m => Coherent code m ∧ kept trace m)
        (fun trace m d m' hk hm => ⟨hk.1.move hm, move trace m d m' hk.1 hk.2 hm⟩) trace
        ⟨hcoh.tick, core _ _ _ (Machine.sameCore_tick _) ih⟩
      rw [Session.deeds, if_neg (by simp [hcomplete]), he]
      exact core _ _ _ (Machine.sameCore_drained _) (core _ _ _ last.sameCore_settle hboth.2)

/-- What the start has and every turn keeps, whatever the clocks and the reports say, a run keeps. -/
theorem keeps_counts (hc : config.Admitted) (kept : Machine → Prop)
    (start : ∀ m, Machine.initial config code = .ok m → kept m)
    (same : ∀ m m', SameCounts m m' → kept m → kept m')
    (turn : ∀ m m', Coherent code m → kept m → m.Turn m' → kept m')
    (h : Reached config code trace s) : kept s.machine := by
  induction h with
  | load hconfig hload =>
    obtain ⟨-, m, hm, he⟩ := load_eq hconfig hload
    rw [he]
    exact same _ _ m.sameCounts_drained (start m hm)
  | step earlier hstep ih =>
    rcases step_eq hstep with ⟨-, rfl⟩ | ⟨-, m, hm, he⟩
    · exact ih
    · obtain ⟨last, hlast, rfl⟩ := Machine.runCycle_keeps kept turn (coherent hc earlier)
        (same _ _ (Machine.sameCounts_tick _) ih) hm
      rw [he]
      exact same _ _ (Machine.sameCounts_drained _) (same _ _ last.sameCounts_settle hlast)

/-- The same for what does not depend on the counters. -/
theorem keeps_turns (hc : config.Admitted) (kept : Machine → Prop)
    (start : ∀ m, Machine.initial config code = .ok m → kept m)
    (core : ∀ m m', SameCore m m' → kept m → kept m')
    (turn : ∀ m m', Coherent code m → kept m → m.Turn m' → kept m')
    (h : Reached config code trace s) : kept s.machine :=
  h.keeps_counts hc kept start (fun m m' hs => core m m' hs.toSameCore) turn

end Reached

/-! ### A run to evaluate -/

/-- So many steps with their trace, unless one of them fails. -/
def traced (s : Session) : Nat → Option (List Deed × Session)
  | 0 => some ([], s)
  | n + 1 =>
    match s.step with
    | .ok (s', .ok ()) => (s'.traced n).map fun (trace, last) => (s.deeds ++ trace, last)
    | _ => none

/-- Loads a program into a new session and takes steps. -/
def tracedRun (config : Config) (code : List Instruction) (n : Nat) : Option (List Deed × Session) :=
  match (new config).toOption with
  | none => none
  | some before =>
    match before.load code with
    | .ok (s, .ok ()) => s.traced n
    | _ => none

theorem Reached.of_traced {n : Nat} {more : List Deed} (h : Reached config code trace s)
    (hs : s.traced n = some (more, s')) : Reached config code (trace ++ more) s' := by
  induction n generalizing s trace more with
  | zero =>
    simp only [traced, Option.some.injEq, Prod.mk.injEq] at hs
    obtain ⟨rfl, rfl⟩ := hs
    rwa [List.append_nil]
  | succ n ih =>
    unfold traced at hs
    split at hs
    · next hstep =>
      rw [Option.map_eq_some_iff] at hs
      obtain ⟨⟨rest, last⟩, hrest, he⟩ := hs
      simp only [Prod.mk.injEq] at he
      obtain ⟨rfl, rfl⟩ := he
      rw [← List.append_assoc]
      exact ih (h.step hstep) hrest
    · simp at hs

theorem step_of_traced {more : List Deed} (h : s.traced 1 = some (more, s')) : s.step = .ok (s', .ok ()) := by
  unfold traced at h
  split at h
  · next hstep =>
    simp only [traced, Option.map_some, Option.some.injEq, Prod.mk.injEq] at h
    rw [hstep, h.2]
  · simp at h

theorem Reached.of_tracedRun {n : Nat} (h : tracedRun config code n = some (trace, s)) :
    Reached config code trace s := by
  unfold tracedRun at h
  split at h
  · simp at h
  · next before hb =>
    split at h
    · next hload =>
      rw [toOption_eq_some_iff, new, bind_eq_ok_iff] at hb
      obtain ⟨m, -, hm⟩ := hb
      obtain rfl := pure_eq_ok_iff.1 hm
      exact (Reached.load rfl hload).of_traced h
    · simp at h

end Session

end OutOfOrder
