import OutOfOrder.Proofs.Faults
import OutOfOrder.Proofs.Rollback

/-!
A run is bounded stepping. It ends where steps complete the program, before the step that meets a fault, or at the
limit, whichever comes first; what was stepped and undone before it makes no difference. No configuration is too
large for this.
-/

set_option autoImplicit false

namespace OutOfOrder

/-! ### The clock -/

namespace Machine

variable {m m' : Machine}

theorem writeResult_blames_now (m : Machine) (i : Nat) : Blames (fun f => f.cycle = m.cycle) (m.writeResult i) := by
  unfold writeResult
  refine (Blames.guarded _).bind fun station _ => ?_
  split
  · split
    · exact .ok m
    · refine (Blames.guarded _).bind fun slot _ => ?_
      split
      · intro f hf
        obtain rfl := Halt.fault.inj (Except.error.inj hf)
        rfl
      · refine (deliver_blames _ _ _ _ _ _ _).bind fun n _ => ?_
        split <;> exact .ok _
  · exact .ok m

/-- A fault is reported with the cycle that it ends. -/
theorem cycle_fault {f : Fault} (h : m.runCycle = .error (.fault f)) : f.cycle = m.cycle + 1 := by
  have hnow : Blames (fun f => f.cycle = m.tick.cycle) m.tick.writeResults :=
    Blames.foldlM (fun _ n => n.cycle = m.tick.cycle) (fun i _ n hn => hn ▸ n.writeResult_blames_now i)
      (fun _ _ _ _ hn hw => (writeResult_steady hw).cycle.trans hn) rfl
  exact blames_of_writeResults hnow f h

theorem finishedAt_settle (h : m.finishedAt = none) (hc : m.settle.isComplete = true) :
    m.settle.finishedAt = some m.settle.cycle := by
  rw [cycle_settle]
  unfold settle at hc ⊢
  split at hc
  · next hdone =>
    rw [if_pos hdone]
    rfl
  · simp [isComplete, h] at hc

theorem finishedAt_runCycle (hbusy : m.isComplete = false) (h : m.runCycle = .ok m')
    (hc : m'.isComplete = true) : m'.finishedAt = some m'.cycle := by
  simp only [runCycle, bind_eq_ok_iff, pure_eq_ok_iff] at h
  obtain ⟨written, hw, executed, he, issued, hi, last, hl, rfl⟩ := h
  have hs := (((writeResults_steady hw).trans (execute_steady he)).trans (issue_steady hi)).trans
    (commit_steady hl)
  have hnone : last.finishedAt = none := by
    rw [hs.finishedAt]
    show m.finishedAt = none
    simpa [isComplete] using hbusy
  exact finishedAt_settle hnone hc

end Machine

/-! ### Steps -/

namespace Session

variable {s s' t : Session} {n : Nat}

theorem length_snapshots_step (hbusy : s.isComplete = false) (h : s.step = .ok (s', .ok ())) :
    s'.snapshots.length = s.snapshots.length + 1 := by
  have hback := rollback_of_step hbusy h
  unfold rollback at hback
  split at hback
  · simp at hback
  · next heq =>
    obtain rfl := Option.some.inj hback
    rw [heq, List.length_cons]

theorem Advances.cycle_eq (h : s.Advances n s') : s'.machine.cycle = s.machine.cycle + n := by
  induction h with
  | start => rfl
  | cycle _ busy step ih =>
    rw [cycle_step busy step, ih]
    rfl

/-- Only the machine counts for what a step does. -/
theorem step_congr (hm : t.machine = s.machine) {answer : Except Failure Unit} (h : s.step = .ok (s', answer)) :
    ∃ t', t.step = .ok (t', answer) ∧ t'.machine = s'.machine := by
  unfold step isComplete at h ⊢
  rw [hm]
  split at h
  · next hdone =>
    simp only [Except.ok.injEq, Prod.mk.injEq] at h
    obtain ⟨rfl, rfl⟩ := h
    exact ⟨t, by rw [if_pos hdone], hm⟩
  · next hbusy =>
    rw [if_neg hbusy]
    split at h <;> simp only [Except.ok.injEq, Prod.mk.injEq, reduceCtorEq] at h <;>
      obtain ⟨rfl, rfl⟩ := h <;> exact ⟨_, rfl, rfl⟩

/-! ### Runs -/

theorem runWithin_of_failure {e : Failure} (h : s.step = .ok (s', .error e)) (n : Nat) :
    s.runWithin (n + 1) = .ok (s', .error e) := by
  have hbusy : s.isComplete = false := by
    by_contra hdone
    rw [Bool.not_eq_false] at hdone
    simp [step, hdone] at h
  rw [runWithin_succ hbusy, h]
  rfl

theorem Advances.runWithin (h : s.Advances n s') (rest : Nat) : s.runWithin (n + rest) = s'.runWithin rest := by
  induction h generalizing rest with
  | start => rw [Nat.zero_add]
  | @cycle n s' s'' _ busy step ih =>
    rw [Nat.add_assoc, Nat.add_comm 1, ih, runWithin_succ busy, step]
    rfl

theorem isComplete_congr (hm : t.machine = s.machine) : t.isComplete = s.isComplete := congrArg Machine.isComplete hm

theorem runWithin_congr_of_complete (hm : t.machine = s.machine) (hdone : s.isComplete = true)
    {answer : Except Failure Nat} (h : s.runWithin n = .ok (s', answer)) :
    ∃ t', t.runWithin n = .ok (t', answer) ∧ t'.machine = s'.machine := by
  have hrun := runWithin_of_complete ((isComplete_congr hm).trans hdone) n
  rw [runWithin_of_complete hdone, Except.ok.injEq, Prod.mk.injEq] at h
  obtain ⟨rfl, rfl⟩ := h
  rw [cyclesRun, hm] at hrun
  exact ⟨t, hrun, hm⟩

theorem runWithin_congr (hm : t.machine = s.machine) {answer : Except Failure Nat}
    (h : s.runWithin n = .ok (s', answer)) : ∃ t', t.runWithin n = .ok (t', answer) ∧ t'.machine = s'.machine := by
  induction n generalizing s t with
  | zero =>
    cases hbusy : s.isComplete with
    | true => exact runWithin_congr_of_complete hm hbusy h
    | false =>
      have hrun := runWithin_zero ((isComplete_congr hm).trans hbusy)
      rw [runWithin_zero hbusy, Except.ok.injEq, Prod.mk.injEq] at h
      obtain ⟨rfl, rfl⟩ := h
      rw [hm] at hrun
      exact ⟨_, hrun, rfl⟩
  | succ n ih =>
    cases hbusy : s.isComplete with
    | true => exact runWithin_congr_of_complete hm hbusy h
    | false =>
      rw [runWithin_succ hbusy, bind_eq_ok_iff] at h
      rw [runWithin_succ ((isComplete_congr hm).trans hbusy)]
      obtain ⟨⟨middle, result⟩, hstep, h⟩ := h
      obtain ⟨middle', hstep', hmiddle⟩ := step_congr hm hstep
      rw [hstep']
      cases result with
      | ok => exact ih hmiddle h
      | error e =>
        simp only [pure_eq_ok_iff, Prod.mk.injEq] at h
        obtain ⟨rfl, rfl⟩ := h
        exact ⟨middle', rfl, hmiddle⟩

end Session

/-! ### Sessions that stop when the program is complete -/

/-- The session runs an accepted program, and none of the cycles behind it was begun on a complete machine. -/
structure Prompt (config : Config) (code : List Instruction) (s : Session) : Prop
    extends OnTrack config code s where
  accepted : Session.misfits config code = []
  busy : ∀ k < s.snapshots.length, ∀ m events, straightRun config code k = .ok (m, events) →
    m.isComplete = false

namespace Prompt

open Session

variable {config : Config} {code : List Instruction} {s s' : Session} {n : Nat}

theorem of_load {before : Session} (h : before.load code = .ok (s, .ok ())) :
    Prompt before.config code s ∧ s.snapshots = [] := by
  have htrack := OnTrack.of_load h
  have hfit := (load_eq rfl h).1
  have hnone : s.snapshots = [] := by
    simp only [load, hfit, reset, bind_eq_ok_iff, pure_eq_ok_iff, Prod.mk.injEq] at h
    obtain ⟨fresh, ⟨m, -, rfl⟩, rfl, -⟩ := h
    rfl
  exact ⟨⟨htrack, hfit, by simp [hnone]⟩, hnone⟩

theorem length_snapshots (h : Prompt config code s) : s.snapshots.length = s.machine.cycle :=
  (cycle_straightRun h.chained.straight).symm

theorem push (h : Prompt config code s) {line : LogEntry} (hl : line.event? = none) :
    Prompt config code { s with log := s.log.push line } :=
  ⟨h.toOnTrack.push hl, h.accepted, h.busy⟩

theorem step (h : Prompt config code s) (hbusy : s.isComplete = false) (hs : s.step = .ok (s', .ok ())) :
    Prompt config code s' := by
  refine ⟨h.toOnTrack.step hs, h.accepted, fun k hk m events hm => ?_⟩
  rw [length_snapshots_step hbusy hs] at hk
  rcases Nat.lt_succ_iff_lt_or_eq.1 hk with hk | rfl
  · exact h.busy k hk m events hm
  · rw [h.chained.straight, Except.ok.injEq, Prod.mk.injEq] at hm
    rw [← hm.1]
    exact hbusy

theorem rollback (h : Prompt config code s) (hs : s.rollback = some s') : Prompt config code s' := by
  refine ⟨h.toOnTrack.rollback hs, h.accepted, fun k hk => h.busy k ?_⟩
  rw [length_snapshots_rollback hs] at hk
  omega

theorem advances (h : Prompt config code s) (ha : s.Advances n s') : Prompt config code s' := by
  induction ha with
  | start => exact h
  | cycle _ busy step ih => exact ih.step busy step

/-- The program is complete in the cycle that the machine has reached. -/
theorem finishedAt_eq (h : Prompt config code s) (hdone : s.isComplete = true) :
    s.machine.finishedAt = some s.machine.cycle := by
  have hstraight := h.chained.straight
  cases hlength : s.snapshots.length with
  | zero =>
    rw [hlength] at hstraight
    simp only [straightRun, bind_eq_ok_iff, guarded_eq_ok_iff, pure_eq_ok_iff, Prod.mk.injEq] at hstraight
    obtain ⟨start, hstart, he, -⟩ := hstraight
    obtain ⟨rob, -, rfl⟩ := Machine.initial_eq hstart
    rw [Session.isComplete, ← he] at hdone
    rw [← he]
    exact Machine.finishedAt_settle rfl hdone
  | succ k =>
    rw [hlength] at hstraight
    simp only [straightRun, bind_eq_ok_iff, pure_eq_ok_iff, Prod.mk.injEq] at hstraight
    obtain ⟨⟨before, events⟩, hbefore, after, hafter, he, -⟩ := hstraight
    rw [Session.isComplete, ← he] at hdone
    have hfinished : after.finishedAt = some after.cycle :=
      Machine.finishedAt_runCycle (h.busy k (by omega) before events hbefore) hafter hdone
    rw [← he]
    exact hfinished

theorem cyclesRun_eq (h : Prompt config code s) (hdone : s.isComplete = true) :
    s.cyclesRun = s.machine.cycle := by
  rw [cyclesRun, h.finishedAt_eq hdone]
  rfl

/-- A step from a session that is not complete succeeds or meets a fault. -/
theorem step_cases (h : Prompt config code s) (hbusy : s.isComplete = false) :
    (∃ s', s.step = .ok (s', .ok ())) ∨ ∃ s' fault, s.step = .ok (s', .error (.arithmetic fault)) := by
  unfold Session.step
  rw [if_neg (by simp [hbusy])]
  rcases (straightRun_confined h.accepted h.chained.straight).runCycle_sound.exists_ok with ⟨m, hm⟩ | ⟨f, hf⟩
  · exact .inl ⟨_, by rw [hm]⟩
  · exact .inr ⟨_, f, by rw [hf]⟩

/-- So many steps can be made unless the program is complete before, or a fault is met. -/
theorem exists_advances (h : Prompt config code s) (n : Nat) : (∃ s', s.Advances n s') ∨
    (∃ k < n, ∃ s', s.Advances k s' ∧ s'.isComplete = true) ∨
    ∃ k < n, ∃ s' s'' fault, s.Advances k s' ∧ s'.step = .ok (s'', .error (.arithmetic fault)) := by
  induction n with
  | zero => exact .inl ⟨s, .start⟩
  | succ n ih =>
    rcases ih with ⟨s', ha⟩ | ⟨k, hk, hrest⟩ | ⟨k, hk, hrest⟩
    · by_cases hdone : s'.isComplete = true
      · exact .inr (.inl ⟨n, Nat.lt_succ_self n, s', ha, hdone⟩)
      rw [Bool.not_eq_true] at hdone
      rcases (h.advances ha).step_cases hdone with ⟨s'', hs⟩ | ⟨s'', fault, hs⟩
      · exact .inl ⟨s'', ha.cycle hdone hs⟩
      · exact .inr (.inr ⟨n, Nat.lt_succ_self n, s', s'', fault, ha, hs⟩)
    · exact .inr (.inl ⟨k, Nat.lt_succ_of_lt hk, hrest⟩)
    · exact .inr (.inr ⟨k, Nat.lt_succ_of_lt hk, hrest⟩)

theorem exists_runWithin (h : Prompt config code s) (n : Nat) :
    ∃ s' answer, s.runWithin n = .ok (s', answer) ∧ Prompt config code s' := by
  rcases h.exists_advances n with ⟨s', ha⟩ | ⟨k, hk, s', ha, hdone⟩ | ⟨k, hk, s', s'', fault, ha, hs⟩
  · have hs' := h.advances ha
    have hrun := ha.runWithin 0
    by_cases hdone : s'.isComplete = true
    · rw [runWithin_of_complete hdone] at hrun
      exact ⟨s', _, hrun, hs'⟩
    · rw [runWithin_zero (by simpa using hdone)] at hrun
      exact ⟨_, _, hrun, hs'.push rfl⟩
  · have hrun := ha.runWithin (n - k)
    rw [Nat.add_sub_cancel' (Nat.le_of_lt hk), runWithin_of_complete hdone] at hrun
    exact ⟨s', _, hrun, h.advances ha⟩
  · have hrun := ha.runWithin (n - k - 1 + 1)
    rw [show k + (n - k - 1 + 1) = n by omega, runWithin_of_failure hs] at hrun
    obtain ⟨_, -, rfl⟩ := step_of_failure hs
    exact ⟨_, _, hrun, (h.advances ha).push rfl⟩

theorem exists_perform (h : Prompt config code s) (command : Command) :
    ∃ s', s.perform command = .ok s' ∧ Prompt config code s' := by
  cases command with
  | step =>
    by_cases hdone : s.isComplete = true
    · exact ⟨s, by simp [Session.perform, Session.step, hdone, Except.map], h⟩
    · rw [Bool.not_eq_true] at hdone
      rcases h.step_cases hdone with ⟨s', hs⟩ | ⟨s', fault, hs⟩
      · exact ⟨s', by rw [Session.perform, hs]; rfl, h.step hdone hs⟩
      · obtain ⟨_, -, rfl⟩ := step_of_failure hs
        exact ⟨_, by rw [Session.perform, hs]; rfl, h.push rfl⟩
  | run =>
    obtain ⟨s', answer, hrun, hs'⟩ := h.exists_runWithin (s.config.maxCycles.toNat - s.machine.cycle)
    exact ⟨s', by rw [Session.perform, Session.run, hrun]; rfl, hs'⟩
  | rollback =>
    refine ⟨_, rfl, ?_⟩
    cases hr : s.rollback with
    | none => exact h
    | some s' => exact h.rollback hr

theorem exists_performAll (h : Prompt config code s) (commands : List Command) :
    ∃ s', s.performAll commands = .ok s' ∧ Prompt config code s' := by
  induction commands generalizing s with
  | nil => exact ⟨s, rfl, h⟩
  | cons command rest ih =>
    obtain ⟨middle, hmiddle, hprompt⟩ := h.exists_perform command
    obtain ⟨s', hs', hlast⟩ := ih hprompt
    exact ⟨s', by rw [performAll, List.foldlM_cons, hmiddle]; exact hs', hlast⟩

end Prompt

/-! ### Where a run ends -/

/-- A run beside steps from the same session, after `k` cycles and with `limit` as the limit. -/
structure BoundedStepping (s : Session) (k limit : Nat) : Prop where
  complete : s.isComplete = true → s.machine.finishedAt = some k ∧ s.run = .ok (s, .ok k)
  completes : ∀ n s', s.isComplete = false → s.Advances n s' → s'.isComplete = true → k + n ≤ limit →
    s'.machine.cycle = k + n ∧ s'.machine.finishedAt = some (k + n) ∧ s.run = .ok (s', .ok (k + n))
  faults : ∀ n s' s'' e, s.Advances n s' → s'.step = .ok (s'', .error e) → k + n + 1 ≤ limit →
    ∃ fault, e = .arithmetic fault ∧ fault.cycle = k + n + 1 ∧ s'.machine.cycle = k + n ∧
      s'' = { s' with log := s'.log.push (.fault fault) } ∧ s.run = .ok (s'', .error (.arithmetic fault))
  runsAway : s.isComplete = false →
    (∀ n s', s.Advances n s' → s'.isComplete = true → limit < k + n) →
    (∀ n s' s'' e, s.Advances n s' → s'.step = .ok (s'', .error e) → limit < k + n + 1) →
    ∃ s', s.Advances (limit - k) s' ∧ s'.machine.cycle = max k limit ∧
      s.run = .ok ({ s' with log := s'.log.push (.interrupted (max k limit)) }, .error (.runaway (max k limit)))

/-- They differ in the lines of the log that are no events, if at all. -/
structure Session.Alike (s t : Session) : Prop where
  machine : s.machine = t.machine
  snapshots : s.snapshots.map Snapshot.machine = t.snapshots.map Snapshot.machine
  events : s.log.toList.filterMap LogEntry.event? = t.log.toList.filterMap LogEntry.event?

theorem Chained.machines_eq {config : Config} {code : List Instruction} {m m' : Machine} {log log' : List LogEntry}
    {snapshots snapshots' : List Snapshot} (h : Chained config code m log snapshots)
    (h' : Chained config code m' log' snapshots') (hl : snapshots.length = snapshots'.length) :
    snapshots.map Snapshot.machine = snapshots'.map Snapshot.machine := by
  induction snapshots generalizing m m' log log' snapshots' with
  | nil =>
    obtain rfl := List.eq_nil_of_length_eq_zero hl.symm
    rfl
  | cons last rest ih =>
    cases snapshots' with
    | nil => simp at hl
    | cons last' rest' =>
      have hl : rest.length = rest'.length := Nat.succ.inj hl
      have hlast := h.2.2.straight
      rw [hl, h'.2.2.straight, Except.ok.injEq, Prod.mk.injEq] at hlast
      rw [List.map_cons, List.map_cons, hlast.1, ih h.2.2 h'.2.2 hl]

theorem Prompt.alike {config : Config} {code : List Instruction} {s t : Session} (hs : Prompt config code s)
    (ht : Prompt config code t) (hm : s.machine = t.machine) : s.Alike t := by
  have hl : s.snapshots.length = t.snapshots.length := by
    rw [hs.length_snapshots, ht.length_snapshots, hm]
  have hstraight := hs.chained.straight
  rw [hl, ht.chained.straight, Except.ok.injEq, Prod.mk.injEq] at hstraight
  exact ⟨hm, hs.chained.machines_eq ht.chained hl, hstraight.2.symm⟩

theorem Prompt.boundedStepping {config : Config} {code : List Instruction} {s : Session}
    (h : Prompt config code s) : BoundedStepping s s.machine.cycle s.config.maxCycles.toNat where
  complete hdone := by
    refine ⟨h.finishedAt_eq hdone, ?_⟩
    rw [Session.run_eq, if_pos hdone, h.cyclesRun_eq hdone]
  completes n s' _ ha hdone hle := by
    have hs' := h.advances ha
    have hcycle := ha.cycle_eq
    have hrun := ha.runWithin (s.config.maxCycles.toNat - s.machine.cycle - n)
    rw [Nat.add_sub_cancel' (by omega), Session.runWithin_of_complete hdone, hs'.cyclesRun_eq hdone, hcycle] at hrun
    exact ⟨hcycle, hcycle ▸ hs'.finishedAt_eq hdone, hrun⟩
  faults n s' s'' e ha hs hle := by
    obtain ⟨fault, rfl, he⟩ := step_of_failure hs
    have hcycle := ha.cycle_eq
    have hrun := ha.runWithin (s.config.maxCycles.toNat - s.machine.cycle - n - 1 + 1)
    rw [show n + (s.config.maxCycles.toNat - s.machine.cycle - n - 1 + 1) =
      s.config.maxCycles.toNat - s.machine.cycle by omega, Session.runWithin_of_failure hs] at hrun
    have hfault := Machine.cycle_fault (Session.runCycle_of_failure hs)
    rw [hcycle] at hfault
    exact ⟨fault, rfl, hfault, hcycle, he, hrun⟩
  runsAway hbusy hcompletes hfaults := by
    rcases h.exists_advances (s.config.maxCycles.toNat - s.machine.cycle) with
      ⟨s', ha⟩ | ⟨k, hk, s', ha, hdone⟩ | ⟨k, hk, s', s'', fault, ha, hs⟩
    · have hcycle : s'.machine.cycle = max s.machine.cycle s.config.maxCycles.toNat := by
        rw [ha.cycle_eq]
        omega
      -- beyond the limit no step is made, and the session itself is not complete
      have hdone : s'.isComplete = false := by
        by_contra hdone
        rw [Bool.not_eq_false] at hdone
        have hlt := hcompletes _ s' ha hdone
        rw [show s.config.maxCycles.toNat - s.machine.cycle = 0 by omega] at ha
        cases ha
        simp [hbusy] at hdone
      have hrun := ha.runWithin 0
      rw [Session.runWithin_zero hdone, hcycle] at hrun
      exact ⟨s', ha, hcycle, hrun⟩
    · have hlt := hcompletes k s' ha hdone
      omega
    · have hlt := hfaults k s' s'' _ ha hs
      omega

/-- Whatever the calls after a load, they lead to a session, and a run from there ends where steps complete the
program or meet a fault within the limit, else at the limit. Within the limit it ends as if it were the first call. -/
theorem run_is_bounded_stepping {before s₀ : Session} {code : List Instruction}
    (h₀ : before.load code = .ok (s₀, .ok ())) (commands : List Command) :
    ∃ s, s₀.performAll commands = .ok s ∧ s.config = before.config ∧
      BoundedStepping s s.machine.cycle s.config.maxCycles.toNat ∧
      (s.machine.cycle ≤ s.config.maxCycles.toNat → ∃ s₁ s₂ answer,
        s₀.run = .ok (s₁, answer) ∧ s.run = .ok (s₂, answer) ∧ s₂.Alike s₁) := by
  obtain ⟨hs₀, hnone⟩ := Prompt.of_load h₀
  obtain ⟨s, hs, hprompt⟩ := hs₀.exists_performAll commands
  refine ⟨s, hs, hprompt.config_eq, hprompt.boundedStepping, fun hle => ?_⟩
  obtain ⟨s', ha, hmachine⟩ := Session.exists_advances hs₀.toOnTrack hnone hprompt.chained.straight hprompt.busy
  obtain ⟨s₁, answer, hrun, hs₁⟩ := hs₀.exists_runWithin s.config.maxCycles.toNat
  -- the run from the start passes through the machine that the calls have led to
  have hthrough := ha.runWithin (s.config.maxCycles.toNat - s.machine.cycle)
  rw [hprompt.length_snapshots, Nat.add_sub_cancel' hle, hrun] at hthrough
  obtain ⟨s₂, hrun₂, hmachine₂⟩ := Session.runWithin_congr hmachine.symm hthrough.symm
  obtain ⟨t, _, ht, hs₂⟩ := hprompt.exists_runWithin (s.config.maxCycles.toNat - s.machine.cycle)
  rw [hrun₂, Except.ok.injEq, Prod.mk.injEq] at ht
  obtain ⟨rfl, -⟩ := ht
  refine ⟨s₁, s₂, answer, ?_, hrun₂, hs₂.alike hs₁ hmachine₂⟩
  rw [Session.run, hs₀.config_eq, ← hprompt.config_eq, ← hs₀.length_snapshots, hnone]
  exact hrun

/-- A load that is accepted and the calls after it, from one computation that shows how they end. -/
theorem Session.exists_of_calls (config : Config) (code : List Instruction) (commands : List Command)
    (shows : Session → Bool) (h : (do
      let loaded ← (← Session.new config).load code
      let s ← loaded.1.performAll commands
      return (loaded.2.toOption, shows s)).toOption = some (some (), true)) :
    ∃ before s₀ s : Session, before.config = config ∧ before.load code = .ok (s₀, .ok ()) ∧
      s₀.performAll commands = .ok s ∧ shows s = true := by
  simp only [toOption_eq_some_iff, bind_eq_ok_iff, pure_eq_ok_iff, Prod.mk.injEq] at h
  obtain ⟨before, hnew, loaded, hload, s, hs, haccepted, hshows⟩ := h
  obtain ⟨s₀, answer⟩ := loaded
  obtain rfl : answer = .ok () := haccepted
  have hconfig : before.config = config := by
    simp only [Session.new, bind_eq_ok_iff, pure_eq_ok_iff] at hnew
    obtain ⟨m, -, rfl⟩ := hnew
    rfl
  exact ⟨before, s₀, s, hconfig, hload, hs, hshows⟩

/-- A division by zero meets its fault in the fifth cycle, an addition is complete in the fourth. With a limit of five
the run of the division ends in the fault, in the last cycle that is allowed; with a limit of four it ends at the limit,
where the run of the addition is complete. So it is at once as well as after a step, a run, a rollback and a step. -/
theorem run_is_bounded_stepping_exits :
    (∃ s₀ s s₁ s₂ : Session, ∃ fault : Fault, s₀.performAll [.step, .run, .rollback, .step] = .ok s ∧
      BoundedStepping s 4 5 ∧ fault.cycle = 5 ∧ s₀.run = .ok (s₁, .error (.arithmetic fault)) ∧
      s.run = .ok (s₂, .error (.arithmetic fault)) ∧ s₂.Alike s₁) ∧
    (∃ s₀ s s₁ s₂ : Session, s₀.performAll [.step, .run, .rollback, .step] = .ok s ∧ BoundedStepping s 4 4 ∧
      s₀.run = .ok (s₁, .error (.runaway 4)) ∧ s.run = .ok (s₂, .error (.runaway 4)) ∧ s₂.Alike s₁) ∧
    ∃ s₀ s s₁ : Session, s₀.performAll [.step, .run, .rollback, .step] = .ok s ∧ BoundedStepping s 4 4 ∧
      s₀.run = .ok (s₁, .ok 4) ∧ s.run = .ok (s, .ok 4) ∧ s.Alike s₁ := by
  let division : Instruction := ⟨.div, some ⟨1⟩, ⟨2⟩, some ⟨0⟩, 0, []⟩
  let addition : Instruction := ⟨.add, some ⟨1⟩, ⟨2⟩, some ⟨3⟩, 0, []⟩
  let five : Config := { Config.standard with memorySize := 0, maxCycles := 5 }
  let four : Config := { Config.standard with memorySize := 0, maxCycles := 4 }
  let fails (s : Session) : Bool := s.step.toOption.any fun next => next.2.toOption.isNone
  refine ⟨?_, ?_, ?_⟩
  · obtain ⟨before, s₀, s, hfive, hload, hs, hshows⟩ := Session.exists_of_calls five [division]
      [.step, .run, .rollback, .step] (fun s => s.machine.cycle == 4 && fails s) (by decide +kernel)
    simp only [fails, Bool.and_eq_true, beq_iff_eq, Option.any_eq_true, toOption_eq_some_iff] at hshows
    obtain ⟨hcycle, ⟨s', stepped⟩, hstep, hfails⟩ := hshows
    obtain ⟨t, ht, hconfig, hbounded, hsame⟩ := run_is_bounded_stepping hload [.step, .run, .rollback, .step]
    obtain rfl : s = t := Except.ok.inj (hs.symm.trans ht)
    rw [hcycle, hconfig, hfive] at hbounded hsame
    obtain ⟨s₁, s₂, answer, hrun₁, hrun₂, halike⟩ := hsame (by decide)
    cases stepped with
    | ok => simp [Except.toOption] at hfails
    | error e =>
      obtain ⟨fault, rfl, hfault, -, -, hrun⟩ := hbounded.faults 0 s s' e .start hstep (by decide)
      rw [hrun₂, Except.ok.injEq, Prod.mk.injEq] at hrun
      obtain ⟨-, rfl⟩ := hrun
      exact ⟨s₀, s, s₁, s₂, fault, hs, hbounded, hfault, hrun₁, hrun₂, halike⟩
  · obtain ⟨before, s₀, s, hfour, hload, hs, hshows⟩ := Session.exists_of_calls four [division]
      [.step, .run, .rollback, .step] (fun s => s.machine.cycle == 4 && !s.isComplete) (by decide +kernel)
    simp only [Bool.and_eq_true, beq_iff_eq, Bool.not_eq_true'] at hshows
    obtain ⟨hcycle, hbusy⟩ := hshows
    obtain ⟨t, ht, hconfig, hbounded, hsame⟩ := run_is_bounded_stepping hload [.step, .run, .rollback, .step]
    obtain rfl : s = t := Except.ok.inj (hs.symm.trans ht)
    rw [hcycle, hconfig, hfour] at hbounded hsame
    obtain ⟨s₁, s₂, answer, hrun₁, hrun₂, halike⟩ := hsame (by decide)
    -- the limit is reached, so whatever a step would come to lies beyond it
    have hlimit : four.maxCycles.toNat = 4 := rfl
    have hbeyond : ∀ n s', s.Advances n s' → s'.isComplete = true → four.maxCycles.toNat < 4 + n := by
      intro n s' ha hdone
      cases ha with
      | start => simp [hbusy] at hdone
      | cycle => omega
    obtain ⟨s', -, -, hrun⟩ := hbounded.runsAway hbusy hbeyond fun n _ _ _ _ _ => by omega
    rw [hrun₂, Except.ok.injEq, Prod.mk.injEq] at hrun
    obtain ⟨-, rfl⟩ := hrun
    exact ⟨s₀, s, s₁, s₂, hs, hbounded, hrun₁, hrun₂, halike⟩
  · obtain ⟨before, s₀, s, hfour, hload, hs, hshows⟩ := Session.exists_of_calls four [addition]
      [.step, .run, .rollback, .step] (fun s => s.machine.cycle == 4 && s.isComplete) (by decide +kernel)
    simp only [Bool.and_eq_true, beq_iff_eq] at hshows
    obtain ⟨hcycle, hdone⟩ := hshows
    obtain ⟨t, ht, hconfig, hbounded, hsame⟩ := run_is_bounded_stepping hload [.step, .run, .rollback, .step]
    obtain rfl : s = t := Except.ok.inj (hs.symm.trans ht)
    rw [hcycle, hconfig, hfour] at hbounded hsame
    obtain ⟨s₁, s₂, answer, hrun₁, hrun₂, halike⟩ := hsame (by decide)
    obtain ⟨-, hrun⟩ := hbounded.complete hdone
    rw [hrun₂, Except.ok.injEq, Prod.mk.injEq] at hrun
    obtain ⟨rfl, rfl⟩ := hrun
    exact ⟨s₀, s₂, s₁, hs, hbounded, hrun₁, hrun₂, halike⟩

end OutOfOrder
