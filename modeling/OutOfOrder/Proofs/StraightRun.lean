import OutOfOrder.Session.Loop

/-!
Steps, runs and rollbacks in any order. The machine is always the one that a straight run has after as many
cycles as there are snapshots; a snapshot keeps no log but its length, which suffices because what a snapshot
has seen of the log stays its beginning.
-/

set_option autoImplicit false

namespace OutOfOrder

def LogEntry.event? : LogEntry → Option Event
  | .event e => some e
  | _ => none

/-- The machine after `k` cycles and the events up to then, those of the start included. -/
def straightRun (config : Config) (code : List Instruction) : Nat → Except Halt (Machine × List Event)
  | 0 => do
    let (events, m) := (← Halt.guarded (Machine.initial config code)).takeEvents
    return (m, events.toList)
  | k + 1 => do
    let (m, earlier) ← straightRun config code k
    let (events, m) := (← m.runCycle).takeEvents
    return (m, earlier ++ events.toList)

inductive Command
  | step
  | run
  | rollback
  deriving DecidableEq, Repr

namespace Session

/-- The session after a call, whatever its answer was. -/
def perform (s : Session) : Command → Except Breach Session
  | .step => s.step.map Prod.fst
  | .run => s.run.map Prod.fst
  | .rollback => .ok (s.rollback.getD s)

def performAll (s : Session) (commands : List Command) : Except Breach Session := commands.foldlM perform s

/-- Just loaded, or just reset. -/
def Fresh (s : Session) : Prop :=
  ∃ before : Session, before.reset = .ok s ∨ ∃ code, before.load code = .ok (s, .ok ())

end Session

theorem cycle_initial {config : Config} {code : List Instruction} {m : Machine}
    (h : Machine.initial config code = .ok m) : m.cycle = 0 := by
  simp only [Machine.initial, bind_eq_ok_iff, pure_eq_ok_iff] at h
  obtain ⟨rob, -, rfl⟩ := h
  rw [Machine.cycle_settle]
  rfl

theorem cycle_straightRun {config : Config} {code : List Instruction} {k : Nat} {m : Machine}
    {events : List Event} (h : straightRun config code k = .ok (m, events)) : m.cycle = k := by
  induction k generalizing m events with
  | zero =>
    simp only [straightRun, bind_eq_ok_iff, guarded_eq_ok_iff, pure_eq_ok_iff, Machine.takeEvents] at h
    obtain ⟨start, hs, he⟩ := h
    obtain ⟨rfl, -⟩ := Prod.mk.inj he
    have hc := cycle_initial hs
    exact hc
  | succ k ih =>
    simp only [straightRun, bind_eq_ok_iff, pure_eq_ok_iff, Machine.takeEvents] at h
    obtain ⟨⟨before, earlier⟩, hb, after, ha, he⟩ := h
    obtain ⟨rfl, -⟩ := Prod.mk.inj he
    have hc := Machine.cycle_runCycle ha
    rw [ih hb] at hc
    exact hc

/-- Snapshots below a machine and its log: each lands on the straight run, one cycle apart. -/
def Chained (config : Config) (code : List Instruction) (m : Machine) (log : List LogEntry) :
    List Snapshot → Prop
  | [] => straightRun config code 0 = .ok (m, log.filterMap LogEntry.event?)
  | last :: rest =>
    straightRun config code (rest.length + 1) = .ok (m, log.filterMap LogEntry.event?) ∧
      last.logLength ≤ log.length ∧
      Chained config code last.machine (log.take last.logLength) rest

namespace Chained

variable {config : Config} {code : List Instruction} {m : Machine} {log : List LogEntry}
  {snapshots : List Snapshot}

theorem straight (h : Chained config code m log snapshots) :
    straightRun config code snapshots.length = .ok (m, log.filterMap LogEntry.event?) := by
  cases snapshots with
  | nil => exact h
  | cons last rest => exact h.1

/-- A line that is no event belongs to no cycle. -/
theorem append (h : Chained config code m log snapshots) {lines : List LogEntry}
    (hl : lines.filterMap LogEntry.event? = []) : Chained config code m (log ++ lines) snapshots := by
  have he : (log ++ lines).filterMap LogEntry.event? = log.filterMap LogEntry.event? := by
    rw [List.filterMap_append, hl, List.append_nil]
  cases snapshots with
  | nil =>
    simp only [Chained] at h ⊢
    rw [he]
    exact h
  | cons last rest =>
    obtain ⟨hs, hle, hrest⟩ := h
    refine ⟨by rw [he]; exact hs, ?_, ?_⟩
    · rw [List.length_append]
      omega
    · rw [List.take_append_of_le_length hle]
      exact hrest

theorem cycle (h : Chained config code m log snapshots) {m' : Machine} (hm : m.runCycle = .ok m') :
    Chained config code m'.takeEvents.2 (log ++ m'.takeEvents.1.toList.map .event)
      (⟨m, log.length⟩ :: snapshots) := by
  have hevents : ∀ events : List Event, (events.map LogEntry.event).filterMap LogEntry.event? = events := by
    intro events
    rw [List.filterMap_map]
    exact List.filterMap_some
  refine ⟨?_, by simp, ?_⟩
  · rw [straightRun, h.straight]
    simp only [bind, Except.bind, hm, List.filterMap_append, hevents]
    rfl
  · rw [List.take_left]
    exact h

/-- The snapshot at depth `i`, the oldest at depth zero, is the machine after `i` cycles. -/
theorem getElem?_reverse (h : Chained config code m log snapshots) {i : Nat} {snap : Snapshot}
    (hs : snapshots.reverse[i]? = some snap) : snap.logLength ≤ log.length ∧
      straightRun config code i =
        .ok (snap.machine, (log.take snap.logLength).filterMap LogEntry.event?) := by
  induction snapshots generalizing m log with
  | nil => simp at hs
  | cons last rest ih =>
    obtain ⟨-, hle, hrest⟩ := h
    rw [List.reverse_cons, List.getElem?_append, List.length_reverse, List.getElem?_singleton] at hs
    split at hs
    · obtain ⟨hsnap, hrun⟩ := ih hrest hs
      rw [List.length_take] at hsnap
      rw [List.take_take, Nat.min_eq_left (by omega)] at hrun
      exact ⟨by omega, hrun⟩
    · next hlt =>
      split at hs
      · obtain rfl := Option.some.inj hs
        have hi : i = rest.length := by omega
        rw [hi]
        exact ⟨hle, hrest.straight⟩
      · simp at hs

end Chained

/-- What the commands keep of a session that runs a program. -/
structure OnTrack (config : Config) (code : List Instruction) (s : Session) : Prop where
  config_eq : s.config = config
  code_eq : s.code = code
  chained : Chained config code s.machine s.log.toList s.snapshots

namespace OnTrack

open Session

variable {config : Config} {code : List Instruction} {s s' : Session}

theorem of_reset {before : Session} (h : before.reset = .ok s) : OnTrack before.config before.code s := by
  simp only [reset, bind_eq_ok_iff, pure_eq_ok_iff] at h
  obtain ⟨m, hm, rfl⟩ := h
  refine ⟨rfl, rfl, ?_⟩
  have he : (m.events.map LogEntry.event).toList.filterMap LogEntry.event? = m.events.toList := by
    rw [Array.toList_map, List.filterMap_map]
    exact List.filterMap_some
  simp only [Chained, straightRun, hm, Halt.guarded, Machine.takeEvents, bind, Except.bind, pure,
    Except.pure, he]

theorem of_load {before : Session} {program : List Instruction}
    (h : before.load program = .ok (s, .ok ())) : OnTrack before.config program s := by
  unfold load at h
  split at h
  · simp only [bind_eq_ok_iff, pure_eq_ok_iff, Prod.mk.injEq] at h
    obtain ⟨fresh, hf, rfl, -⟩ := h
    have ht := of_reset hf
    have hnil : fresh.snapshots = [] := by
      simp only [reset, bind_eq_ok_iff, pure_eq_ok_iff] at hf
      obtain ⟨m, -, rfl⟩ := hf
      rfl
    refine ⟨ht.config_eq, ht.code_eq, ?_⟩
    have hc := ht.chained
    have hline : (LogEntry.loaded program.length).event? = none := rfl
    simp only [hnil, Chained] at hc ⊢
    simpa [List.filterMap_cons, hline] using hc
  · simp [pure_eq_ok_iff] at h

theorem of_fresh (h : s.Fresh) : OnTrack s.config s.code s := by
  obtain ⟨before, hr | ⟨program, hl⟩⟩ := h
  · have ht := of_reset hr
    rw [ht.config_eq, ht.code_eq]
    exact ht
  · have ht := of_load hl
    rw [ht.config_eq, ht.code_eq]
    exact ht

theorem push (h : OnTrack config code s) {line : LogEntry} (hl : line.event? = none) :
    OnTrack config code { s with log := s.log.push line } where
  config_eq := h.config_eq
  code_eq := h.code_eq
  chained := by
    rw [Array.toList_push]
    exact h.chained.append (by simp [hl])

theorem step (h : OnTrack config code s) {answer : Except Failure Unit} (hs : s.step = .ok (s', answer)) :
    OnTrack config code s' := by
  unfold Session.step at hs
  split at hs
  · simp only [Except.ok.injEq, Prod.mk.injEq] at hs
    obtain ⟨rfl, -⟩ := hs
    exact h
  · split at hs
    · simp at hs
    · simp only [Except.ok.injEq, Prod.mk.injEq] at hs
      obtain ⟨rfl, -⟩ := hs
      exact h.push rfl
    · next m hm =>
      simp only [Except.ok.injEq, Prod.mk.injEq] at hs
      obtain ⟨rfl, -⟩ := hs
      refine ⟨h.config_eq, h.code_eq, ?_⟩
      simpa using h.chained.cycle hm

theorem runWithin (h : OnTrack config code s) {n : Nat} {answer : Except Failure Nat}
    (hs : s.runWithin n = .ok (s', answer)) : OnTrack config code s' := by
  obtain ⟨last, hlast, hends⟩ := runWithin_ending (OnTrack config code) (fun _ _ ht hstep => ht.step hstep) h hs
  cases hends with
  | complete => exact hlast
  | failure fails => exact hlast.step fails
  | limit => exact hlast.push rfl

theorem rollback (h : OnTrack config code s) (hs : s.rollback = some s') : OnTrack config code s' := by
  have hc := h.chained
  unfold Session.rollback at hs
  split at hs
  · simp at hs
  · next last rest heq =>
    obtain rfl := Option.some.inj hs
    rw [heq] at hc
    refine ⟨h.config_eq, h.code_eq, ?_⟩
    simpa using hc.2.2

theorem perform (h : OnTrack config code s) {command : Command} (hs : s.perform command = .ok s') :
    OnTrack config code s' := by
  cases command with
  | step =>
    simp only [Session.perform, map_eq_ok_iff] at hs
    obtain ⟨⟨after, answer⟩, ha, rfl⟩ := hs
    exact h.step ha
  | run =>
    simp only [Session.perform, map_eq_ok_iff] at hs
    obtain ⟨⟨after, answer⟩, ha, rfl⟩ := hs
    exact h.runWithin ha
  | rollback =>
    simp only [Session.perform, Except.ok.injEq] at hs
    obtain rfl := hs
    cases hr : s.rollback with
    | none => exact h
    | some after => exact h.rollback hr

theorem performAll (h : OnTrack config code s) {commands : List Command}
    (hs : s.performAll commands = .ok s') : OnTrack config code s' :=
  foldlM_keeps (fun _ s => OnTrack config code s) (fun _ _ _ _ ht hp => ht.perform hp) h hs

end OnTrack

theorem rollback_eq_none_iff (s : Session) : s.rollback = none ↔ s.snapshots.length = 0 := by
  unfold Session.rollback
  cases hs : s.snapshots <;> simp

theorem length_snapshots_rollback {s s' : Session} (h : s.rollback = some s') :
    s'.snapshots.length = s.snapshots.length - 1 := by
  unfold Session.rollback at h
  split at h
  · simp at h
  · next heq =>
    obtain rfl := Option.some.inj h
    simp [heq]

/-- A step that fails has met a fault and leaves nothing behind but a line. -/
theorem step_of_failure {s s' : Session} {e : Failure} (h : s.step = .ok (s', .error e)) :
    ∃ fault, e = .arithmetic fault ∧ s' = { s with log := s.log.push (.fault fault) } := by
  unfold Session.step at h
  split at h
  · simp at h
  · split at h
    · simp at h
    · next fault _ =>
      simp only [Except.ok.injEq, Prod.mk.injEq, Except.error.injEq] at h
      obtain ⟨rfl, rfl⟩ := h
      exact ⟨fault, rfl, rfl⟩
    · simp at h

/-- Whatever the calls and their answers were, the number of snapshots alone determines the machine. -/
theorem commands_follow_straightRun {s₀ s : Session} {commands : List Command} (h₀ : s₀.Fresh)
    (h : s₀.performAll commands = .ok s) :
    s.machine.cycle = s.snapshots.length ∧
    straightRun s₀.config s₀.code s.snapshots.length =
      .ok (s.machine, s.log.toList.filterMap LogEntry.event?) ∧
    (∀ i snap, s.snapshots.reverse[i]? = some snap → snap.logLength ≤ s.log.size ∧
      ∃ events, straightRun s₀.config s₀.code i = .ok (snap.machine, events)) ∧
    (s.rollback = none ↔ s.snapshots.length = 0) ∧
    (∀ s', s.rollback = some s' → s'.snapshots.length = s.snapshots.length - 1 ∧
      straightRun s₀.config s₀.code (s.snapshots.length - 1) =
        .ok (s'.machine, s'.log.toList.filterMap LogEntry.event?)) ∧
    ∀ s' e, s.step = .ok (s', .error e) →
      ∃ fault, e = .arithmetic fault ∧ s' = { s with log := s.log.push (.fault fault) } := by
  have ht := (OnTrack.of_fresh h₀).performAll h
  have hstraight := ht.chained.straight
  refine ⟨cycle_straightRun hstraight, hstraight, ?_, rollback_eq_none_iff s, ?_,
    fun _ _ => step_of_failure⟩
  · intro i snap hs
    obtain ⟨hle, hrun⟩ := ht.chained.getElem?_reverse hs
    exact ⟨by simpa using hle, _, hrun⟩
  · intro s' hs
    have hl := length_snapshots_rollback hs
    refine ⟨hl, ?_⟩
    rw [← hl]
    exact (ht.rollback hs).chained.straight

/-- A division by zero in the fifth cycle: the run fails there and leaves a line of its own. -/
theorem commands_follow_straightRun_division : ∃ s₀ s : Session,
    s₀.Fresh ∧ s₀.performAll [.step, .run, .rollback, .step] = .ok s ∧ s.machine.cycle = 4 ∧
      straightRun s₀.config s₀.code 4 = .ok (s.machine, s.log.toList.filterMap LogEntry.event?) ∧
      s.log.size = 8 := by
  let division : Instruction := ⟨.div, some ⟨1⟩, ⟨2⟩, some ⟨0⟩, 0, []⟩
  let config : Config := { Config.standard with memorySize := 0 }
  have hrun : (do
      let (s₀, answer) ← (← Session.new config).load [division]
      let s ← s₀.performAll [.step, .run, .rollback, .step]
      return (answer.toOption, s.snapshots.length, s.log.size)).toOption = some (some (), 4, 8) := by
    decide +kernel
  simp only [toOption_eq_some_iff, bind_eq_ok_iff, pure_eq_ok_iff, Prod.mk.injEq] at hrun
  obtain ⟨before, -, ⟨s₀, answer⟩, hl, s, hs, ha, hdepth, hsize⟩ := hrun
  obtain rfl : answer = .ok () := ha
  have hf : s₀.Fresh := ⟨before, .inr ⟨[division], hl⟩⟩
  obtain ⟨hcycle, hstraight, -⟩ := commands_follow_straightRun hf hs
  rw [hdepth] at hcycle hstraight
  exact ⟨s₀, s, hf, hs, hcycle, hstraight, hsize⟩

end OutOfOrder
