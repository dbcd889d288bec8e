import OutOfOrder.Proofs.Steady
import OutOfOrder.Session

/-!
The run as a loop. Every round looks whether the program is complete, then whether the clock has come to the limit, and
steps if neither is so. The rounds that a run counts before the first of them are the same, because a step takes one
cycle.
-/

set_option autoImplicit false

namespace OutOfOrder

namespace Session

variable {s s' : Session}

theorem step_eq (h : s.step = .ok (s', .ok ())) :
    s.isComplete = true ∧ s' = s ∨ s.isComplete = false ∧
      ∃ m, s.machine.runCycle = .ok m ∧ s'.machine = m.takeEvents.2 := by
  unfold step at h
  split at h
  · next hc =>
    simp only [Except.ok.injEq, Prod.mk.injEq] at h
    exact .inl ⟨hc, h.1.symm⟩
  · next hc =>
    split at h
    · simp at h
    · simp at h
    · next m hm =>
      simp only [Except.ok.injEq, Prod.mk.injEq] at h
      obtain ⟨rfl, -⟩ := h
      exact .inr ⟨by simpa using hc, m, hm, rfl⟩

theorem cycle_step (hbusy : s.isComplete = false) (h : s.step = .ok (s', .ok ())) :
    s'.machine.cycle = s.machine.cycle + 1 := by
  rcases step_eq h with ⟨hdone, -⟩ | ⟨-, m, hm, he⟩
  · simp [hbusy] at hdone
  · have hcycle := Machine.cycle_runCycle hm
    rw [he]
    exact hcycle

theorem config_step {answer : Except Failure Unit} (h : s.step = .ok (s', answer)) : s'.config = s.config := by
  unfold step at h
  split at h
  · simp only [Except.ok.injEq, Prod.mk.injEq] at h
    rw [h.1]
  · split at h <;> simp only [Except.ok.injEq, Prod.mk.injEq, reduceCtorEq] at h <;> rw [← h.1]

/-! ### Rounds that are counted -/

theorem runWithin_of_complete (h : s.isComplete = true) (n : Nat) :
    s.runWithin n = .ok (s, .ok s.cyclesRun) := by
  unfold runWithin
  rw [if_pos h]

theorem runWithin_zero (h : s.isComplete = false) : s.runWithin 0 =
    .ok ({ s with log := s.log.push (.interrupted s.machine.cycle) }, .error (.runaway s.machine.cycle)) := by
  unfold runWithin
  rw [if_neg (by simp [h])]

theorem runWithin_succ (h : s.isComplete = false) (n : Nat) : s.runWithin (n + 1) = (do
    match ← s.step with
    | (s, .ok ()) => s.runWithin n
    | (s, .error e) => return (s, .error e)) := by
  rw [runWithin]
  exact if_neg (by simp [h])

/-- How a run ends from the session that its steps have led to: complete, in a step that fails, or at the limit. -/
inductive Ending (last : Session) : Session → Except Failure Nat → Prop
  | complete (done : last.isComplete = true) : Ending last last (.ok last.cyclesRun)
  | failure {s : Session} {e : Failure} (fails : last.step = .ok (s, .error e)) : Ending last s (.error e)
  | limit (busy : last.isComplete = false) :
      Ending last { last with log := last.log.push (.interrupted last.machine.cycle) }
        (.error (.runaway last.machine.cycle))

theorem Ending.of_complete (hdone : s.isComplete = true) {n : Nat} {answer : Except Failure Nat}
    (hr : s.runWithin n = .ok (s', answer)) : s.Ending s' answer := by
  rw [runWithin_of_complete hdone, Except.ok.injEq, Prod.mk.injEq] at hr
  obtain ⟨rfl, rfl⟩ := hr
  exact .complete hdone

/-- What every step keeps holds where the run ends. -/
theorem runWithin_ending (kept : Session → Prop)
    (step : ∀ s s' : Session, kept s → s.step = .ok (s', .ok ()) → kept s') {n : Nat} {answer : Except Failure Nat}
    (h : kept s) (hr : s.runWithin n = .ok (s', answer)) : ∃ last, kept last ∧ last.Ending s' answer := by
  induction n generalizing s with
  | zero =>
    cases hbusy : s.isComplete with
    | true => exact ⟨s, h, .of_complete hbusy hr⟩
    | false =>
      rw [runWithin_zero hbusy, Except.ok.injEq, Prod.mk.injEq] at hr
      obtain ⟨rfl, rfl⟩ := hr
      exact ⟨s, h, .limit hbusy⟩
  | succ n ih =>
    cases hbusy : s.isComplete with
    | true => exact ⟨s, h, .of_complete hbusy hr⟩
    | false =>
      rw [runWithin_succ hbusy, bind_eq_ok_iff] at hr
      obtain ⟨⟨middle, result⟩, hstep, hr⟩ := hr
      cases result with
      | ok => exact ih (step s middle h hstep) hr
      | error e =>
        simp only [pure_eq_ok_iff, Prod.mk.injEq] at hr
        obtain ⟨rfl, rfl⟩ := hr
        exact ⟨s, h, .failure hstep⟩

/-! ### Rounds that look at the clock -/

/-- Complete, at the limit, or a step and on. -/
theorem run_eq (s : Session) : s.run =
    if s.isComplete then .ok (s, .ok s.cyclesRun)
    else if s.config.maxCycles.toNat ≤ s.machine.cycle then
      .ok ({ s with log := s.log.push (.interrupted s.machine.cycle) }, .error (.runaway s.machine.cycle))
    else do
      match ← s.step with
      | (s, .ok ()) => s.run
      | (s, .error e) => return (s, .error e) := by
  cases hbusy : s.isComplete with
  | true => rw [if_pos rfl, run, runWithin_of_complete hbusy]
  | false =>
    rw [if_neg Bool.false_ne_true]
    split
    · next hlimit => rw [run, Nat.sub_eq_zero_of_le hlimit, runWithin_zero hbusy]
    · next hleft =>
      rw [run, show s.config.maxCycles.toNat - s.machine.cycle =
        s.config.maxCycles.toNat - (s.machine.cycle + 1) + 1 by omega, runWithin_succ hbusy]
      cases hstep : s.step with
      | error b => rfl
      | ok next =>
        obtain ⟨s', answer⟩ := next
        cases answer with
        | error e => rfl
        | ok =>
          -- the rounds that were counted are those that the next session would count
          show s'.runWithin _ = s'.run
          rw [run, config_step hstep, cycle_step hbusy hstep]

end Session

end OutOfOrder
