import OutOfOrder.Proofs.Integrity

/-!
Rolling back as if the run had stopped earlier. A completed cycle is undone without a trace, in the log as in the
machine, so the session that is left is the one of fewer cycles, and so is all that is printed of it.
-/

set_option autoImplicit false

namespace OutOfOrder

/-- Of the cycles that are asked for the program takes so many, fewer only when it completes, and none of them
meets a fault. -/
structure Lasts (config : Config) (code : List Instruction) (asked taken : Nat) : Prop where
  le : taken ≤ asked
  reached : ∃ m events, straightRun config code taken = .ok (m, events) ∧
    (taken < asked → m.isComplete = true)
  busy : ∀ k < taken, ∀ m events, straightRun config code k = .ok (m, events) → m.isComplete = false

/-- The cycle after so many meets a fault. -/
def Faults (config : Config) (code : List Instruction) (k : Nat) : Prop :=
  ∃ m events fault, straightRun config code k = .ok (m, events) ∧ m.isComplete = false ∧
    m.runCycle = .error (.fault fault)

section Straight

variable {config : Config} {code : List Instruction} {m : Machine} {events : List Event}

/-- A run of so many cycles at most lasts for some number of them, unless one of its cycles meets a fault. -/
theorem exists_lasts_or_faults (hc : config.Admitted) (hfit : Session.misfits config code = []) (n : Nat) :
    (∃ t, Lasts config code n t) ∨ ∃ k < n, Lasts config code k k ∧ Faults config code k := by
  induction n with
  | zero =>
    obtain ⟨m, hm⟩ := Machine.exists_initial hc.capacity_pos code
    refine .inl ⟨0, Nat.le_refl 0, ⟨m.takeEvents.2, m.takeEvents.1.toList, ?_, nofun⟩, nofun⟩
    rw [straightRun, hm]
    rfl
  | succ n ih =>
    rcases ih with ⟨t, hlasts⟩ | ⟨k, hk, hlasts, hfaults⟩
    · obtain ⟨m, events, hm, hcomplete⟩ := hlasts.reached
      have hle := hlasts.le
      by_cases hdone : m.isComplete = true
      · exact .inl ⟨t, by omega, ⟨m, events, hm, fun _ => hdone⟩, hlasts.busy⟩
      obtain rfl : t = n := by
        by_contra hne
        exact hdone (hcomplete (by omega))
      rcases (straightRun_confined hfit hm).runCycle_sound.exists_ok with ⟨m', hm'⟩ | ⟨fault, hfault⟩
      · refine .inl ⟨t + 1, Nat.le_refl _, ⟨m'.takeEvents.2, events ++ m'.takeEvents.1.toList, ?_, ?_⟩, ?_⟩
        · rw [straightRun, hm]
          simp only [bind, Except.bind, hm']
          rfl
        · exact fun hlt => absurd hlt (Nat.lt_irrefl _)
        · intro k hk last seen hlast
          rcases Nat.lt_succ_iff_lt_or_eq.1 hk with hlt | rfl
          · exact hlasts.busy k hlt last seen hlast
          · rw [hm, Except.ok.injEq, Prod.mk.injEq] at hlast
            rw [← hlast.1]
            simpa using hdone
      · exact .inr ⟨t, Nat.lt_succ_self t, hlasts, m, events, fault, hm, by simpa using hdone, hfault⟩
    · exact .inr ⟨k, Nat.lt_succ_of_lt hk, hlasts, hfaults⟩

end Straight

namespace Session

variable {config : Config} {code : List Instruction} {s s' s'' : Session} {n t : Nat}

/-! ### Steps and their undoing -/

theorem rollback_of_step (hbusy : s.isComplete = false) (h : s.step = .ok (s', .ok ())) :
    s'.rollback = some s := by
  unfold step at h
  rw [if_neg (by simp [hbusy])] at h
  split at h
  · simp at h
  · simp at h
  · simp only [Except.ok.injEq, Prod.mk.injEq, and_true] at h
    subst h
    have hlog : ∀ more : Array LogEntry, (s.log ++ more).extract 0 s.log.size = s.log := fun more => by simp
    simp only [rollback, hlog]

theorem stepMany_of_complete (hs : s.isComplete = true) (n : Nat) : s.stepMany n = .ok (s, .ok ()) := by
  cases n with
  | zero => rfl
  | succ n => rw [stepMany, if_pos hs]

theorem stepMany_add (h : s.stepMany n = .ok (s', .ok ())) (k : Nat) :
    s.stepMany (n + k) = s'.stepMany k := by
  induction n generalizing s with
  | zero =>
    simp only [stepMany, Except.ok.injEq, Prod.mk.injEq, and_true] at h
    rw [h, Nat.zero_add]
  | succ n ih =>
    rw [Nat.add_right_comm, stepMany]
    rw [stepMany] at h
    split at h
    · next hdone =>
      simp only [Except.ok.injEq, Prod.mk.injEq, and_true] at h
      rw [if_pos hdone, ← h, stepMany_of_complete hdone]
    · next hbusy =>
      rw [bind_eq_ok_iff] at h
      obtain ⟨⟨middle, answer⟩, hstep, hrest⟩ := h
      cases answer with
      | ok =>
        rw [if_neg hbusy, hstep]
        exact ih hrest
      | error e => simp [pure_eq_ok_iff] at hrest

/-- So many completed cycles, none of them begun on a complete machine. -/
inductive Advances (s : Session) : Nat → Session → Prop
  | start : s.Advances 0 s
  | cycle {n : Nat} {s' s'' : Session} (earlier : s.Advances n s') (busy : s'.isComplete = false)
      (step : s'.step = .ok (s'', .ok ())) : s.Advances (n + 1) s''

namespace Advances

theorem stepMany (h : s.Advances n s') : s.stepMany n = .ok (s', .ok ()) := by
  induction h with
  | start => rfl
  | cycle earlier busy step ih =>
    rw [stepMany_add ih, Session.stepMany, if_neg (by simp [busy]), step]
    rfl

/-- Rolling back ends at the first snapshot, however much more is asked for. -/
theorem rollbackMany (h : s.Advances n s') (hs : s.snapshots = []) (k : Nat) :
    s.Advances (n - min k n) (s'.rollbackMany k).2 := by
  induction h generalizing k with
  | start =>
    cases k with
    | zero => exact .start
    | succ k =>
      rw [Session.rollbackMany, (rollback_eq_none_iff s).2 (by rw [hs]; rfl), Nat.zero_sub]
      exact .start
  | @cycle n s' s'' earlier busy step ih =>
    cases k with
    | zero =>
      rw [Nat.zero_min]
      exact earlier.cycle busy step
    | succ k =>
      rw [Session.rollbackMany, rollback_of_step busy step,
        show n + 1 - min (k + 1) (n + 1) = n - min k n by omega]
      exact ih k

theorem intact (h : s.Advances n s') (hs : s.Intact config) : s'.Intact config := by
  obtain ⟨last, answer, hlast, hintact⟩ := hs.exists_stepMany n
  rw [h.stepMany, Except.ok.injEq, Prod.mk.injEq] at hlast
  exact hlast.1 ▸ hintact

end Advances

/-- The session goes through the machines of the straight run. -/
theorem exists_advances (hs : OnTrack config code s) (hnone : s.snapshots = []) {m : Machine}
    {events : List Event} (h : straightRun config code t = .ok (m, events))
    (busy : ∀ k < t, ∀ m events, straightRun config code k = .ok (m, events) → m.isComplete = false) :
    ∃ s', s.Advances t s' ∧ s'.machine = m := by
  induction t generalizing m events with
  | zero =>
    have hstraight := hs.chained.straight
    rw [hnone, List.length_nil, h, Except.ok.injEq, Prod.mk.injEq] at hstraight
    exact ⟨s, .start, hstraight.1.symm⟩
  | succ t ih =>
    simp only [straightRun, bind_eq_ok_iff, pure_eq_ok_iff, Prod.mk.injEq] at h
    obtain ⟨⟨before, earlier⟩, hb, after, ha, rfl, -⟩ := h
    obtain ⟨s', hadvances, rfl⟩ := ih hb fun k hk => busy k (by omega)
    have hbusy : s'.isComplete = false := busy t (Nat.lt_succ_self t) _ _ hb
    obtain ⟨s'', hstep, hmachine⟩ : ∃ s'', s'.step = .ok (s'', .ok ()) ∧ s''.machine = after.takeEvents.2 := by
      rw [step, if_neg (by simp [hbusy]), ha]
      exact ⟨_, rfl, rfl⟩
    exact ⟨s'', hadvances.cycle hbusy hstep, hmachine⟩

theorem exists_loaded (hc : config.Admitted) (hfit : misfits config code = []) : ∃ before s,
    new config = .ok before ∧ before.load code = .ok (s, .ok ()) ∧ s.Intact config ∧
      OnTrack config code s ∧ s.snapshots = [] := by
  obtain ⟨before, hnew, hbefore⟩ := exists_new hc
  obtain ⟨m, hm⟩ := Machine.exists_initial hc.capacity_pos code
  have hload : before.load code = .ok (⟨config, code, m.takeEvents.2, [],
      #[.loaded code.length] ++ m.takeEvents.1.map .event⟩, .ok ()) := by
    simp only [load, hbefore.config_eq, hfit, reset, hm, bind, Except.bind, pure, Except.pure]
  obtain ⟨s, answer, hs, hintact⟩ := hbefore.exists_load hc code
  have htrack := OnTrack.of_load hload
  rw [hload, Except.ok.injEq, Prod.mk.injEq] at hs
  rw [hbefore.config_eq] at htrack
  exact ⟨before, _, hnew, hload, hs.1 ▸ hintact, htrack, rfl⟩

end Session

namespace Invocation

variable {config : Config} {code : List Instruction} {inv : Invocation} {s s' : Session} {n t : Nat}

theorem misfits_of_loadProgram {program : Except Assembly.SourceError ByteArray}
    (h : inv.loadProgram config program = .ok code) : Session.misfits config code = [] := by
  unfold loadProgram at h
  split at h
  · exact Session.misfits_of_assembled h
  · simp at h

theorem drive_of_advances (inv : Invocation) (h : s.Advances t s') (hn : s.stepMany n = .ok (s', .ok ()))
    (hs : s.snapshots = []) (m : Nat) : ∃ s'', s.Advances (t - min m t) s'' ∧
      ({ inv with cycles := some n, back := m } : Invocation).drive s = .ok (s'', .ok ()) ∧
      ({ inv with cycles := some (t - min m t), back := 0 } : Invocation).drive s = .ok (s'', .ok ()) := by
  have hback := h.rollbackMany hs m
  refine ⟨_, hback, ?_, ?_⟩
  · simp only [drive, hn, bind, Except.bind, pure, Except.pure]
  · simp only [drive, hback.stepMany, bind, Except.bind, pure, Except.pure, Session.rollbackMany]

theorem simulate_of_drive {before : Session} {lines : List String} (hnew : Session.new config = .ok before)
    (hload : before.load code = .ok (s, .ok ())) (hdrive : inv.drive s = .ok (s', .ok ()))
    (hlines : Report.state s' = .ok lines) :
    inv.simulate config code = .ok ⟨0, inv.logLines s' ++ lines⟩ := by
  simp only [simulate, hnew, hload, hdrive, hlines, bind, Except.bind, pure, Except.pure]

end Invocation

/-- A run of so many cycles meets a fault or lasts. If it lasts, rolling back prints what a run of fewer cycles
prints, whichever lines are asked for, and exits with the same code, which is that of success. -/
theorem back_is_stopping_earlier {config : Config} {code : List Instruction} (hc : config.Admitted)
    {inv : Invocation} {file : Option ByteArray} {program : Except Assembly.SourceError ByteArray}
    (hconfig : Invocation.configuration file = config) (hload : inv.loadProgram config program = .ok code)
    (n : Nat) :
    ((∃ t, Lasts config code n t) ∨ ∃ k < n, Lasts config code k k ∧ Faults config code k) ∧
    ∀ t, Lasts config code n t → ∀ m,
      ({ inv with cycles := some n, back := m } : Invocation).run file program =
        ({ inv with cycles := some (t - min m t), back := 0 } : Invocation).run file program ∧
      (({ inv with cycles := some n, back := m } : Invocation).run file program).exitCode = 0 := by
  have hfit : Session.misfits config code = [] := inv.misfits_of_loadProgram hload
  refine ⟨exists_lasts_or_faults hc hfit n, fun t hlasts m => ?_⟩
  obtain ⟨before, s₀, hnew, hs₀, hintact, htrack, hnone⟩ := Session.exists_loaded hc hfit
  obtain ⟨last, events, hlast, hcomplete⟩ := hlasts.reached
  obtain ⟨s, hadvances, hmachine⟩ := Session.exists_advances htrack hnone hlast hlasts.busy
  -- Past the cycles that the program takes there is nothing left to step.
  have hn : s₀.stepMany n = .ok (s, .ok ()) := by
    obtain ⟨more, rfl⟩ := Nat.exists_eq_add_of_le hlasts.le
    rw [Session.stepMany_add hadvances.stepMany]
    cases more with
    | zero => rfl
    | succ more =>
      refine Session.stepMany_of_complete ?_ _
      rw [Session.isComplete, hmachine]
      exact hcomplete (by omega)
  obtain ⟨s', hs', hback, hearly⟩ := inv.drive_of_advances hadvances hn hnone m
  obtain ⟨lines, hlines⟩ := (hs'.intact hintact).exists_state
  have hback := Invocation.simulate_of_drive hnew hs₀ hback hlines
  have hearly := Invocation.simulate_of_drive hnew hs₀ hearly hlines
  have hprogram : ∀ cycles back, ({ inv with cycles, back } : Invocation).loadProgram config program =
      .ok code := fun _ _ => hload
  constructor
  · simp only [Invocation.run, hconfig, hprogram, hback, hearly]
    rfl
  · simp only [Invocation.run, hconfig, hprogram, hback]

/-- The run completes in its seventh cycle and squashes in its fourth; rolling four cycles back ends before that. -/
theorem back_is_stopping_earlier_branch : ∃ (program : Except Assembly.SourceError ByteArray)
    (code : List Instruction),
      (⟨"branch.s", some 100, 4, true⟩ : Invocation).loadProgram .standard program = .ok code ∧
      Lasts .standard code 100 7 ∧
      (⟨"branch.s", some 100, 4, true⟩ : Invocation).run none program =
        (⟨"branch.s", some 3, 0, true⟩ : Invocation).run none program ∧
      ((⟨"branch.s", some 100, 4, true⟩ : Invocation).run none program).exitCode = 0 := by
  let program : Except Assembly.SourceError ByteArray := .ok "beq r0, r0, 1\nadd r1, r2, r3\n".toUTF8
  let code : List Instruction := [⟨.beq, none, ⟨0⟩, some ⟨0⟩, 1, "BEQ R0,R0,1".toList⟩,
    ⟨.add, some ⟨1⟩, ⟨2⟩, some ⟨3⟩, 0, "ADD R1,R2,R3".toList⟩]
  let inv : Invocation := ⟨"branch.s", some 100, 4, true⟩
  have hadmitted : Config.standard.Admitted := ⟨by decide, by decide, by decide⟩
  have hload : inv.loadProgram .standard program = .ok code := by
    rw [← toOption_eq_some_iff]
    decide +kernel
  have hend : ∃ r ∈ (straightRun .standard code 7).toOption, r.1.isComplete = true := by decide +kernel
  have hbusy : ∀ k < 7, ∀ r ∈ (straightRun .standard code k).toOption, r.1.isComplete = false := by
    decide +kernel
  obtain ⟨⟨m, events⟩, hm, hcomplete⟩ := hend
  have hlasts : Lasts .standard code 100 7 := {
    le := by omega
    reached := ⟨m, events, toOption_eq_some_iff.1 hm, fun _ => hcomplete⟩
    busy := fun k hk m events h => hbusy k hk (m, events) (toOption_eq_some_iff.2 h) }
  obtain ⟨hrun, hcode⟩ := (back_is_stopping_earlier hadmitted
    (show Invocation.configuration none = .standard from rfl) hload 100).2 7 hlasts 4
  exact ⟨program, code, hload, hlasts, hrun, hcode⟩

end OutOfOrder
