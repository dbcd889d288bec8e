import OutOfOrder.CommandLine
import OutOfOrder.Proofs.Aliases
import OutOfOrder.Proofs.CommitOrder
import OutOfOrder.Proofs.Safety
import OutOfOrder.Proofs.StraightRun

/-!
No call breaks a contract of the components, whatever the instructions are and in whatever order the calls come:
every machine of a session, those in the snapshots included, is one that a cycle, a report or a restart can
rely on.
-/

set_option autoImplicit false

namespace OutOfOrder

/-! ### Where the searches end -/

namespace ReorderBuffer

variable {b b' : ReorderBuffer} {i : Nat}

theorem lt_of_youngestWriter {r : Register} (h : b.youngestWriter r = some i) : i < b.slots.size := by
  have hmem : ∀ best ∈ b.youngestWriter r, best ∈ b.inFlight := by
    refine List.foldlRecOn (motive := fun best => ∀ j ∈ best, j ∈ b.inFlight) _ _ nofun fun best hbest j hj => ?_
    have hin : j ∈ b.inFlight := (List.mem_filter.1 hj).1
    cases best with
    | none => exact fun k hk => Option.mem_some.1 hk ▸ hin
    | some k =>
      dsimp only
      split
      · exact fun l hl => Option.mem_some.1 hl ▸ hin
      · exact hbest
  exact mem_inFlight_lt (hmem i h)

theorem lt_of_allocate (h : b.allocate = .ok (i, b')) : i < b'.slots.size := by
  unfold allocate at h
  split at h
  · simp only [Except.ok.injEq, Prod.mk.injEq] at h
    obtain ⟨rfl, rfl⟩ := h
    simpa using b.tail_lt
  · simp at h

end ReorderBuffer

/-- Whatever a search of the tables finds is in the table. -/
structure Machine.Located (m : Machine) : Prop where
  head : m.rob.head < m.rob.slots.size
  ring : ∀ k, m.rob.ring k < m.rob.slots.size
  claimed : ∀ i rob, m.rob.allocate = .ok (i, rob) → i < rob.slots.size
  found : ∀ p i, m.rob.find p = some i → i < m.rob.slots.size
  youngest : ∀ r i, m.rob.youngestWriter r = some i → i < m.rob.slots.size
  idle : ∀ unit i, m.stations.idleIn unit = some i → i < m.stations.stations.size
  holder : ∀ tag i, m.stations.stationFor tag = some i → i < m.stations.stations.size
  finished : ∀ i ∈ m.stations.finished, i < m.stations.stations.size

theorem Machine.located (m : Machine) : m.Located where
  head := m.rob.head_lt
  ring := m.rob.ring_lt
  claimed := fun _ _ => ReorderBuffer.lt_of_allocate
  found := fun _ _ => ReorderBuffer.lt_of_find
  youngest := fun _ _ => ReorderBuffer.lt_of_youngestWriter
  idle := fun _ _ h => (Array.findIdx?_eq_some_iff_getElem.1 h).1
  holder := fun _ _ h => (Array.findIdx?_eq_some_iff_getElem.1 h).1
  finished := fun _ hi => List.mem_range.1 (List.mem_filter.1 hi).1

/-! ### Machines -/

/-- All that the components rely on. -/
structure Machine.Whole (code : List Instruction) (m : Machine) : Prop where
  coherent : Coherent code m
  provided : Provided code m
  named : m.Named

namespace Machine

variable {config : Config} {code : List Instruction} {m m' : Machine}

theorem exists_initial (hcapacity : 0 < config.robCapacity.toNat) (code : List Instruction) :
    ∃ m, initial config code = .ok m := by
  simp only [initial, ReorderBuffer.ofCapacity, dif_pos hcapacity, bind, Except.bind, pure, Except.pure]
  exact ⟨_, rfl⟩

namespace Whole

theorem initial (hc : config.Admitted) (hfit : Session.misfits config code = [])
    (h : Machine.initial config code = .ok m) : m.Whole code where
  coherent := .initial hc h
  provided := .initial hfit h
  named := .initial hc h

theorem drained (h : m.Whole code) : m.takeEvents.2.Whole code where
  coherent := h.coherent.drained
  provided := h.provided.of_core m.sameCore_drained
  named := h.named.of_core m.sameCore_drained

theorem settle (h : m.Whole code) : m.settle.Whole code where
  coherent := h.coherent.settle
  provided := h.provided.of_core m.sameCore_settle
  named := h.named.of_core m.sameCore_settle

theorem tick (h : m.Whole code) : m.tick.Whole code where
  coherent := h.coherent.tick
  provided := h.provided.of_core m.sameCore_tick
  named := h.named.of_core m.sameCore_tick

theorem moves (h : m.Whole code) {ds : List Deed} (hm : m.Moves ds m') : m'.Whole code :=
  hm.keeps (fun _ m => m.Whole code) (fun _ _ _ _ h hm =>
    ⟨h.coherent.move hm, h.provided.of_steady hm.steady, h.named.move h.coherent hm⟩) [] h

theorem runCycle (h : m.Whole code) (hm : m.runCycle = .ok m') : m'.Whole code := by
  obtain ⟨last, hmoves, rfl⟩ := runCycle_moves h.coherent hm
  exact (h.tick.moves hmoves).settle

theorem sound (h : m.Whole code) : Sound m.runCycle := (h.coherent.confined h.provided).runCycle_sound

end Whole

end Machine

/-! ### Reports -/

theorem exists_mapM {ε α β : Type} {f : α → Except ε β} {xs : List α} (h : ∀ x ∈ xs, ∃ y, f x = .ok y) :
    ∃ ys, xs.mapM f = .ok ys := by
  induction xs with
  | nil => exact ⟨[], rfl⟩
  | cons x rest ih =>
    obtain ⟨y, hy⟩ := h x (List.mem_cons_self ..)
    obtain ⟨ys, hys⟩ := ih fun z hz => h z (List.mem_cons_of_mem x hz)
    exact ⟨y :: ys, by rw [List.mapM_cons, hy, hys]; rfl⟩

namespace Machine.Whole

variable {code : List Instruction} {m : Machine}

/-- Every alias is a register that exists. -/
theorem exists_aliases (h : m.Whole code) : ∃ lines, Report.aliases m.aliases m.physical = .ok lines := by
  have hentry : ∀ entry ∈ m.aliases.toList, ∃ line, Report.aliasEntry m.physical entry = .ok line := by
    rintro ⟨r, tag⟩ hentry
    have hget : m.aliases.get? r = some tag := Std.TreeMap.mem_toList_iff_getElem?_eq_some.1 hentry
    rw [h.named.aliased r] at hget
    obtain ⟨slot, hw, ht⟩ := Option.bind_eq_some_iff.1 hget
    have hlt := h.coherent.tags.index_lt h.coherent.count_le
      (List.mem_append_left _ (List.mem_map.2 ⟨slot, (mem_of_lastWriter hw).1, ht⟩))
    have hread : m.physical.get tag = .ok _ := readAt_of_lt hlt
    exact ⟨_, by rw [Report.aliasEntry, hread]; rfl⟩
  obtain ⟨lines, hlines⟩ := exists_mapM hentry
  unfold Report.aliases
  split
  · exact ⟨_, rfl⟩
  · exact ⟨_, by rw [hlines]; rfl⟩

/-- What has committed is in the program. -/
theorem exists_commits (h : m.Whole code) : ∃ lines, Report.commits m = .ok lines := by
  have hentry : ∀ p ∈ m.committedPositions, ∃ line, Report.commitEntry m.fetch p = .ok line := by
    intro p hp
    rw [h.coherent.committedPositions_eq, List.mem_range] at hp
    have hle := h.coherent.order.commits_le
    have hpc := h.coherent.order.pc_le
    have hsize := h.coherent.order.orderly.size_eq
    have hread := readAt_of_lt (show p < m.fetch.histories.size by omega)
    exact ⟨_, by rw [Report.commitEntry, hread]; rfl⟩
  obtain ⟨lines, hlines⟩ := exists_mapM hentry
  exact ⟨_, by rw [Report.commits, hlines]; rfl⟩

end Machine.Whole

/-! ### Sessions -/

/-- A call of a session's owner. -/
inductive Call
  | load (code : List Instruction)
  | reset
  | command (command : Command)

namespace Session

/-- The session after a call, whatever its answer was. -/
def call (s : Session) : Call → Except Breach Session
  | .load code => (s.load code).map Prod.fst
  | .reset => s.reset
  | .command command => s.perform command

def callAll (s : Session) (calls : List Call) : Except Breach Session := calls.foldlM call s

/-- Under the configuration, and with machines that can be relied on. -/
structure Intact (config : Config) (s : Session) : Prop where
  config_eq : s.config = config
  fits : misfits config s.code = []
  machine : s.machine.Whole s.code
  snapshots : ∀ snapshot ∈ s.snapshots, snapshot.machine.Whole s.code

theorem exists_new {config : Config} (hc : config.Admitted) : ∃ s, new config = .ok s ∧ s.Intact config := by
  obtain ⟨m, hm⟩ := Machine.exists_initial hc.capacity_pos []
  let s : Session := { config, code := [], machine := m, snapshots := [], log := #[] }
  have hnew : new config = .ok s := by
    rw [new, hm]
    rfl
  exact ⟨s, hnew, rfl, rfl, .initial hc rfl hm, fun _ h => absurd h List.not_mem_nil⟩

theorem exists_reset {config : Config} (hc : config.Admitted) {s : Session} (hconfig : s.config = config)
    (hfits : misfits config s.code = []) : ∃ s', s.reset = .ok s' ∧ s'.Intact config := by
  subst hconfig
  obtain ⟨m, hm⟩ := Machine.exists_initial hc.capacity_pos s.code
  let fresh : Session :=
    { s with machine := m.takeEvents.2, snapshots := [], log := m.takeEvents.1.map .event }
  have hreset : s.reset = .ok fresh := by
    rw [reset, hm]
    rfl
  exact ⟨fresh, hreset, rfl, hfits, (Machine.Whole.initial hc hfits hm).drained,
    fun _ h => absurd h List.not_mem_nil⟩

namespace Intact

variable {config : Config} {s s' : Session}

/-- A line in the log is of no concern. -/
theorem relog (h : s.Intact config) (log : Array LogEntry) : Intact config { s with log } :=
  ⟨h.config_eq, h.fits, h.machine, h.snapshots⟩

theorem exists_load (hc : config.Admitted) (h : s.Intact config) (code : List Instruction) :
    ∃ s' answer, s.load code = .ok (s', answer) ∧ s'.Intact config := by
  unfold load
  cases hfit : misfits s.config code with
  | nil =>
    rw [h.config_eq] at hfit
    obtain ⟨fresh, hreset, hfresh⟩ := exists_reset hc (s := { s with code }) h.config_eq hfit
    simp only [hreset, bind, Except.bind, pure, Except.pure]
    exact ⟨_, _, rfl, hfresh.relog _⟩
  | cons reason more => exact ⟨s, _, rfl, h⟩

theorem exists_step (h : s.Intact config) : ∃ s' answer, s.step = .ok (s', answer) ∧ s'.Intact config := by
  unfold step
  split
  · exact ⟨s, _, rfl, h⟩
  · rcases h.machine.sound.exists_ok with ⟨m, hm⟩ | ⟨f, hf⟩
    · rw [hm]
      refine ⟨_, _, rfl, h.config_eq, h.fits, (h.machine.runCycle hm).drained, fun snapshot hs => ?_⟩
      rcases List.mem_cons.1 hs with rfl | hs
      · exact h.machine
      · exact h.snapshots snapshot hs
    · rw [hf]
      exact ⟨_, _, rfl, h.relog _⟩

theorem exists_runWithin (h : s.Intact config) (n : Nat) :
    ∃ s' answer, s.runWithin n = .ok (s', answer) ∧ s'.Intact config := by
  induction n generalizing s with
  | zero =>
    unfold runWithin
    split
    · exact ⟨s, _, rfl, h⟩
    · exact ⟨_, _, rfl, h.relog _⟩
  | succ n ih =>
    unfold runWithin
    split
    · exact ⟨s, _, rfl, h⟩
    · obtain ⟨middle, answer, hstep, hmiddle⟩ := h.exists_step
      simp only [hstep, bind, Except.bind]
      cases answer with
      | ok => exact ih hmiddle
      | error e => exact ⟨middle, _, rfl, hmiddle⟩

theorem exists_stepMany (h : s.Intact config) (n : Nat) :
    ∃ s' answer, s.stepMany n = .ok (s', answer) ∧ s'.Intact config := by
  induction n generalizing s with
  | zero => exact ⟨s, _, rfl, h⟩
  | succ n ih =>
    unfold stepMany
    split
    · exact ⟨s, _, rfl, h⟩
    · obtain ⟨middle, answer, hstep, hmiddle⟩ := h.exists_step
      simp only [hstep, bind, Except.bind]
      cases answer with
      | ok => exact ih hmiddle
      | error e => exact ⟨middle, _, rfl, hmiddle⟩

theorem rollback (h : s.Intact config) (hs : s.rollback = some s') : s'.Intact config := by
  unfold Session.rollback at hs
  split at hs
  · simp at hs
  · next last rest heq =>
    obtain rfl := Option.some.inj hs
    have hsnapshots := h.snapshots
    rw [heq] at hsnapshots
    exact ⟨h.config_eq, h.fits, hsnapshots last (List.mem_cons_self ..),
      fun snapshot hs => hsnapshots snapshot (List.mem_cons_of_mem last hs)⟩

theorem rollbackMany (h : s.Intact config) (n : Nat) : (s.rollbackMany n).2.Intact config := by
  induction n generalizing s with
  | zero => exact h
  | succ n ih =>
    unfold Session.rollbackMany
    cases hs : s.rollback with
    | none => exact h
    | some s' => exact ih (h.rollback hs)

theorem exists_call (hc : config.Admitted) (h : s.Intact config) (call : Call) :
    ∃ s', s.call call = .ok s' ∧ s'.Intact config := by
  cases call with
  | load code =>
    obtain ⟨s', answer, hload, hs'⟩ := h.exists_load hc code
    exact ⟨s', by rw [Session.call, hload]; rfl, hs'⟩
  | reset => exact exists_reset hc h.config_eq h.fits
  | command command =>
    cases command with
    | step =>
      obtain ⟨s', answer, hstep, hs'⟩ := h.exists_step
      exact ⟨s', by rw [Session.call, perform, hstep]; rfl, hs'⟩
    | run =>
      obtain ⟨s', answer, hrun, hs'⟩ := h.exists_runWithin (s.config.maxCycles.toNat - s.machine.cycle)
      exact ⟨s', by rw [Session.call, perform, run, hrun]; rfl, hs'⟩
    | rollback =>
      refine ⟨_, rfl, ?_⟩
      cases hs : s.rollback with
      | none => exact h
      | some s' => exact h.rollback hs

theorem exists_callAll (hc : config.Admitted) (h : s.Intact config) (calls : List Call) :
    ∃ s', s.callAll calls = .ok s' ∧ s'.Intact config := by
  induction calls generalizing s with
  | nil => exact ⟨s, rfl, h⟩
  | cons call rest ih =>
    obtain ⟨middle, hcall, hmiddle⟩ := h.exists_call hc call
    obtain ⟨last, hlast, hintact⟩ := ih hmiddle
    refine ⟨last, ?_, hintact⟩
    rw [callAll, List.foldlM_cons, hcall]
    exact hlast

theorem exists_state (h : s.Intact config) : ∃ lines, Report.state s = .ok lines := by
  obtain ⟨aliases, haliases⟩ := h.machine.exists_aliases
  obtain ⟨commits, hcommits⟩ := h.machine.exists_commits
  simp only [Report.state, haliases, hcommits, bind, Except.bind, pure, Except.pure]
  exact ⟨_, rfl⟩

end Intact

end Session

namespace Invocation

variable {config : Config}

theorem exists_drive (inv : Invocation) {s : Session} (h : s.Intact config) :
    ∃ s' answer, inv.drive s = .ok (s', answer) ∧ s'.Intact config := by
  unfold drive
  cases inv.cycles with
  | some n =>
    obtain ⟨middle, answer, hsteps, hmiddle⟩ := h.exists_stepMany n
    simp only [hsteps, bind, Except.bind, pure, Except.pure]
    exact ⟨_, _, rfl, hmiddle.rollbackMany inv.back⟩
  | none =>
    obtain ⟨middle, answer, hrun, hmiddle⟩ := h.exists_runWithin (s.config.maxCycles.toNat - s.machine.cycle)
    simp only [Session.run, hrun, bind, Except.bind, pure, Except.pure]
    exact ⟨_, _, rfl, hmiddle.rollbackMany inv.back⟩

theorem exists_simulate (hc : config.Admitted) (inv : Invocation) (code : List Instruction) :
    ∃ outcome, inv.simulate config code = .ok outcome ∧ outcome.exitCode ≤ 1 := by
  obtain ⟨before, hnew, hbefore⟩ := Session.exists_new hc
  obtain ⟨s, answer, hload, hs⟩ := hbefore.exists_load hc code
  unfold simulate
  simp only [hnew, hload, bind, Except.bind]
  cases answer with
  | error e => exact ⟨_, rfl, Nat.le_refl 1⟩
  | ok =>
    obtain ⟨last, answer, hdrive, hlast⟩ := inv.exists_drive hs
    obtain ⟨lines, hlines⟩ := hlast.exists_state
    simp only [hdrive, hlines]
    cases answer with
    | ok => exact ⟨_, rfl, Nat.zero_le 1⟩
    | error e => exact ⟨_, rfl, Nat.le_refl 1⟩

end Invocation

theorem Assembly.load_eq_ok_iff {config : Config} {source : List Char} {code : List Instruction} :
    load config source = .ok code ↔
      (instructionLines source).mapM readNumbered = .ok code ∧ misfits config code = [] := by
  rw [load, bind_eq_ok_iff]
  constructor
  · rintro ⟨read, hread, h⟩
    split at h
    · next hnone =>
      obtain rfl := pure_eq_ok_iff.1 h
      exact ⟨hread, hnone⟩
    · simp [throw, throwThe, MonadExceptOf.throw] at h
  · rintro ⟨hread, hnone⟩
    exact ⟨code, hread, by rw [hnone]; rfl⟩

/-- What the loader accepts is no invalid program to a session. -/
theorem Session.misfits_of_assembled {config : Config} {source : List Char} {code : List Instruction}
    (h : Assembly.load config source = .ok code) : misfits config code = [] := by
  have hnone := (Assembly.load_eq_ok_iff.1 h).2
  rw [Assembly.misfits, List.filterMap_eq_nil_iff] at hnone
  rw [misfits, List.filterMap_eq_nil_iff]
  intro i hi
  obtain ⟨p, hp⟩ := List.getElem?_of_mem hi
  simpa using hnone (i, p) (List.mk_mem_zipIdx_iff_getElem?.2 hp)

/-- Whatever is loaded, be it accepted or not, and in whatever order the calls come, no assertion fails and no
register, slot or station is looked for where there is none. So the simulator does not exit with the code of a
panic, whatever the program is and however many cycles are to be run or undone. -/
theorem calls_never_breach {config : Config} (hc : config.Admitted) :
    (∃ s₀, Session.new config = .ok s₀ ∧ ∀ calls, ∃ s, s₀.callAll calls = .ok s) ∧
    (∀ m : Machine, m.Located) ∧
    ∀ (inv : Invocation) (file : Option ByteArray) (program : Except Assembly.SourceError ByteArray),
      Invocation.configuration file = config → (inv.run file program).exitCode ≠ 101 := by
  refine ⟨?_, Machine.located, fun inv file program hconfig => ?_⟩
  · obtain ⟨s₀, hnew, h₀⟩ := Session.exists_new hc
    refine ⟨s₀, hnew, fun calls => ?_⟩
    obtain ⟨s, hs, -⟩ := h₀.exists_callAll hc calls
    exact ⟨s, hs⟩
  · simp only [Invocation.run, hconfig]
    cases inv.loadProgram config program with
    | error e => exact (by decide : 1 ≠ 101)
    | ok code =>
      obtain ⟨outcome, houtcome, hle⟩ := inv.exists_simulate hc code
      simp only [houtcome]
      omega

/-- With one slot, one register of each kind and no station at all, a program that names another register is refused,
and one that does not is never issued, however long it runs. On the standard machine an addition is issued, squashed
by a branch and issued again; the command line reads the same program from a file, runs it and undoes a cycle. -/
theorem calls_never_breach_idle_and_busy :
    (∃ (config : Config) (s₀ s : Session), config.Admitted ∧
      (∀ unit, config.stations unit = 0) ∧ Session.new config = .ok s₀ ∧
      s₀.callAll [.command .rollback, .load [⟨.addi, some ⟨1⟩, ⟨0⟩, none, 1, []⟩],
        .load [⟨.divi, some ⟨0⟩, ⟨0⟩, some ⟨0⟩, 0, []⟩], .command .run, .command .rollback] = .ok s ∧
      s.code.length = 1 ∧ s.machine.cycle = 19) ∧
    ∃ (code : List Instruction) (s₀ s : Session) (program : Except Assembly.SourceError ByteArray),
      Config.standard.Admitted ∧ Session.new .standard = .ok s₀ ∧
      s₀.callAll [.load code, .command .step, .reset, .command .run, .command .rollback] = .ok s ∧
      s.machine.counters.issued = 3 ∧ s.machine.counters.squashed = 1 ∧ s.machine.counters.committed = 1 ∧
      (⟨"branch.s", none, 1, true⟩ : Invocation).loadProgram .standard program = .ok code ∧
      ((⟨"branch.s", none, 1, true⟩ : Invocation).run none program).exitCode ≠ 101 ∧
      ((⟨"missing", none, 3, true⟩ : Invocation).run none (.error .missing)).exitCode ≠ 101 := by
  constructor
  · let config : Config := { Config.standard with
      robCapacity := 1, addStations := 0, mulStations := 0, loadStoreStations := 0, branchStations := 0
      highestArch := 0, highestPhys := 0, maxCycles := 20, memorySize := 0 }
    let calls : List Call := [.command .rollback, .load [⟨.addi, some ⟨1⟩, ⟨0⟩, none, 1, []⟩],
      .load [⟨.divi, some ⟨0⟩, ⟨0⟩, some ⟨0⟩, 0, []⟩], .command .run, .command .rollback]
    have hadmitted : config.Admitted := ⟨by decide, by decide, by decide⟩
    have hrun : (do
        let s ← (← Session.new config).callAll calls
        return (s.code.length, s.machine.cycle)).toOption = some (1, 19) := by
      decide +kernel
    obtain ⟨s₀, hnew, hcalls⟩ := (calls_never_breach hadmitted).1
    obtain ⟨s, hs⟩ := hcalls calls
    simp only [hnew, hs, bind, Except.bind, pure, Except.pure, Except.toOption, Option.some.injEq,
      Prod.mk.injEq] at hrun
    exact ⟨config, s₀, s, hadmitted, fun unit => by cases unit <;> rfl, hnew, hs, hrun.1, hrun.2⟩
  · let code : List Instruction := [⟨.beq, none, ⟨0⟩, some ⟨0⟩, 1, "BEQ R0,R0,1".toList⟩,
      ⟨.add, some ⟨1⟩, ⟨2⟩, some ⟨3⟩, 0, "ADD R1,R2,R3".toList⟩]
    let calls : List Call := [.load code, .command .step, .reset, .command .run, .command .rollback]
    let program : Except Assembly.SourceError ByteArray := .ok "beq r0, r0, 1\nadd r1, r2, r3\n".toUTF8
    have hstandard : Config.standard.Admitted := ⟨by decide, by decide, by decide⟩
    have hrun : (do
        let s ← (← Session.new .standard).callAll calls
        return (s.machine.counters.issued, s.machine.counters.squashed,
          s.machine.counters.committed)).toOption = some (3, 1, 1) := by
      decide +kernel
    have hload : (⟨"branch.s", none, 1, true⟩ : Invocation).loadProgram .standard program = .ok code := by
      rw [← toOption_eq_some_iff]
      decide +kernel
    obtain ⟨⟨s₀, hnew, hcalls⟩, -, hexit⟩ := calls_never_breach hstandard
    obtain ⟨s, hs⟩ := hcalls calls
    simp only [hnew, hs, bind, Except.bind, pure, Except.pure, Except.toOption, Option.some.injEq,
      Prod.mk.injEq] at hrun
    exact ⟨code, s₀, s, program, hstandard, hnew, hs, hrun.1, hrun.2.1, hrun.2.2, hload,
      hexit _ none program rfl, hexit _ none (.error .missing) rfl⟩

end OutOfOrder
