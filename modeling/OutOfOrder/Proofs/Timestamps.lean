import OutOfOrder.Proofs.Lifecycle

/-!
The cycles on record: which of them a version has at each stage, and that its slot knows the same, but for the
start of an execution that is not over yet.
-/

set_option autoImplicit false

namespace OutOfOrder

open Machine

namespace Stage

/-- The cycles that a version at a stage has on record; a squashed one keeps those that it had. -/
inductive Records : Stage → Times → Prop
  | unissued : Records unissued .none
  | issued (i : Nat) : Records issued ⟨some i, none, none, none, none⟩
  | executed (i x d : Nat) : Records executed ⟨some i, some x, some d, none, none⟩
  | written (i x d w : Nat) : Records written ⟨some i, some x, some d, some w, none⟩
  | committed (i x d w c : Nat) : Records committed ⟨some i, some x, some d, some w, some c⟩
  | squashed {stage : Stage} {t : Times} (inFlight : stage.isInFlight = true) (before : Records stage t) :
      Records squashed t

/-- What has committed is not squashed any more. -/
theorem Records.of_commit {stage : Stage} {t : Times} (h : Records stage t) {c : Nat} (hc : t.commit = some c) :
    stage = .committed := by
  cases h with
  | committed => rfl
  | squashed inFlight before =>
    cases before <;> simp_all [isInFlight]
  | unissued | issued | executed | written => simp [Times.none] at hc

end Stage

/-- The slot has the times of the version, and it may have the start of the execution before the version has. -/
def Slot.Matches (s : Slot) (v : Instance) : Prop :=
  s.times = v.times ∨ v.times.executeDone = none ∧ ∃ x, s.times = { v.times with execute := some x }

theorem Slot.Matches.issue {s : Slot} {v : Instance} (h : s.Matches v) : s.times.issue = v.times.issue := by
  rcases h with h | ⟨-, x, h⟩ <;> rw [h]

theorem Slot.times_cancelAfter (s : Slot) (b : Nat) : (s.cancelAfter b).times = s.times := by
  unfold Slot.cancelAfter
  split <;> rfl

structure Dated (m : Machine) : Prop where
  versions : ∀ id v, m.fetch.get? id = some v → v.stage.Records v.times
  slots : ∀ s ∈ m.rob.window, ∀ id v, s.occupant = some id → m.fetch.get? id = some v → s.Matches v

namespace Dated

variable {code : List Instruction} {m m' : Machine} {i k : Nat} {st : Station} {s : Slot} {v : Instance}
  {tag : Tag} {result : Word}

theorem start (hw : m.rob.window = []) (hf : m.fetch = .ofCode code) : Dated m where
  versions id v hv := by
    obtain ⟨i, p, rfl⟩ := Fetch.fresh_of_get?_ofCode (hf ▸ hv)
    exact .unissued
  slots s hs := by simp [hw] at hs

theorem of_core (h : Dated m) (hcore : SameCore m m') : Dated m' :=
  ⟨hcore.fetch ▸ h.versions, hcore.rob ▸ hcore.fetch ▸ h.slots⟩

/-- What a slot that waits knows of a version that is at work, and of one that is done. -/
theorem awaits (h : Dated m) (hcoh : Coherent code m) (awaits : m.Awaits k s v) : s.Matches v :=
  h.slots s awaits.mem v.id v awaits.occupant (hcoh.order.orderly.get?_current awaits.current)

theorem records (h : Dated m) (hcoh : Coherent code m) {p : Nat} (current : m.fetch.current? p = some v) :
    v.stage.Records v.times :=
  h.versions v.id v (hcoh.order.orderly.get?_current current)

theorem times_executed (h : Dated m) (hcoh : Coherent code m) (ha : m.Awaits k s v) (stage : v.stage = .executed) :
    ∃ i x d, v.times = ⟨some i, some x, some d, none, none⟩ ∧ s.times = v.times := by
  have hrecords := h.records hcoh ha.current
  rw [stage] at hrecords
  cases ht : v.times
  rw [ht] at hrecords
  cases hrecords with
  | executed i x d =>
    refine ⟨i, x, d, rfl, ?_⟩
    rcases h.awaits hcoh ha with hm | ⟨hm, -⟩
    · rw [hm, ht]
    · simp [ht] at hm

theorem times_issued (h : Dated m) (hcoh : Coherent code m) (ha : m.Awaits k s v) (stage : v.stage = .issued) :
    ∃ i x, v.times = ⟨some i, none, none, none, none⟩ ∧ s.times = ⟨some i, x, none, none, none⟩ := by
  have hrecords := h.records hcoh ha.current
  rw [stage] at hrecords
  cases ht : v.times
  rw [ht] at hrecords
  cases hrecords with
  | issued i =>
    rcases h.awaits hcoh ha with hm | ⟨-, x, hm⟩
    · exact ⟨i, none, rfl, by rw [hm, ht]⟩
    · exact ⟨i, some x, rfl, by rw [hm, ht]⟩

theorem times_written (h : Dated m) (hcoh : Coherent code m) (hs : s ∈ m.rob.window) (live : s.isLive = true)
    (ready : s.ready = true) (occupant : s.occupant = some v.id)
    (current : m.fetch.current? v.id.position = some v) :
    ∃ i x d w, v.times = ⟨some i, some x, some d, some w, none⟩ ∧ s.times = v.times := by
  have stage := hcoh.order.stage_of_live hs live occupant current
  rw [if_pos ready] at stage
  have hrecords := h.records hcoh current
  rw [stage] at hrecords
  cases ht : v.times
  rw [ht] at hrecords
  cases hrecords with
  | written i x d w =>
    refine ⟨i, x, d, w, rfl, ?_⟩
    rcases h.slots s hs _ _ occupant (hcoh.order.orderly.get?_current current) with hm | ⟨hm, -⟩
    · rw [hm, ht]
    · simp [ht] at hm

theorem times_unissued (h : Dated m) (hcoh : Coherent code m) {p : Nat} (current : m.fetch.current? p = some v)
    (stage : v.stage = .unissued) : v.times = .none := by
  have hrecords := h.records hcoh current
  rw [stage] at hrecords
  cases ht : v.times
  rw [ht] at hrecords
  cases hrecords with
  | unissued => rfl

/-- One version moves on and gets its times; the slots of the others stay, or what shows of them does. -/
theorem moved (h : Dated m) {stage : Stage} {times : Times} (hrecords : stage.Records times)
    (hget : ∀ id, m'.fetch.get? id =
      if v.id = id then (m.fetch.get? id).map (Sequenced.moved stage times) else m.fetch.get? id)
    (hwindow : ∀ t ∈ m'.rob.window, t.occupant = some v.id ∧ t.times = times ∨ t.occupant ≠ some v.id ∧
      ∃ u ∈ m.rob.window, u.occupant = t.occupant ∧ u.times = t.times) : Dated m' where
  versions id w hw := by
    rw [hget] at hw
    split at hw
    · obtain ⟨w, -, rfl⟩ := Option.map_eq_some_iff.1 hw
      exact hrecords
    · exact h.versions id w hw
  slots t ht id w ho hw := by
    rw [hget] at hw
    rcases hwindow t ht with ⟨hto, htimes⟩ | ⟨hto, u, hu, huo, hut⟩
    · obtain rfl := Option.some.inj (hto.symm.trans ho)
      rw [if_pos rfl] at hw
      obtain ⟨w, -, rfl⟩ := Option.map_eq_some_iff.1 hw
      exact .inl htimes
    · have hne : v.id ≠ id := fun he => hto (he ▸ ho)
      rw [if_neg hne] at hw
      rw [Slot.Matches, ← hut]
      exact h.slots u hu id w (huo.trans ho) hw

theorem revised {g : Slot → Slot} (hs : ∀ t ∈ m.rob.window, t.occupant = some v.id → t = s)
    (hg : (g s).occupant = s.occupant) : ∀ t ∈ m.rob.window.map (Slot.revise v.id g),
      t.occupant = some v.id ∧ t.times = (g s).times ∨ t.occupant ≠ some v.id ∧
        ∃ u ∈ m.rob.window, u.occupant = t.occupant ∧ u.times = t.times := by
  intro t ht
  obtain ⟨u, hu, rfl⟩ := List.mem_map.1 ht
  by_cases ho : u.occupant = some v.id
  · obtain rfl := hs u hu ho
    rw [Slot.revise, if_pos ho]
    exact .inl ⟨hg.trans ho, rfl⟩
  · rw [Slot.revise, if_neg ho]
    exact .inr ⟨ho, u, hu, rfl, rfl⟩

theorem gives (h : Dated m) (hcoh : Coherent code m) (hf : Faithful m)
    (given : m.Gives i k st s v tag result m') : Dated m' := by
  have stage := hf.stage _ _ _ _ _ given.mans
  rw [if_pos given.last] at stage
  obtain ⟨i, x, d, hv, hs⟩ := h.times_executed hcoh given.toAwaits stage
  have hrecords : Stage.Records .written (s.holding m.cycle result).times := by
    rw [Slot.holding, hs, hv]
    exact .written i x d m.cycle
  refine h.moved hrecords (fun id => by rw [given.fetch, Fetch.get?_modify]) ?_
  rw [given.window]
  exact revised (fun t ht ho => hcoh.slot_of_occupant ht given.toAwaits.mem (ho.trans given.occupant.symm)) rfl

theorem clears (h : Dated m) (hcoh : Coherent code m) {b : Nat} (cleared : m.Clears b m') : Dated m' where
  versions id w' hw' := by
    rw [cleared.fetch] at hw'
    cases hw : m.fetch.get? id with
    | none =>
      obtain ⟨i, rfl⟩ := Fetch.fresh_of_get?_renewAfter hcoh.order.orderly hw hw'
      exact .unissued
    | some w =>
      rw [Fetch.get?_renewAfter hcoh.order.orderly b hw, Option.some.injEq] at hw'
      rw [← hw']
      split
      · next hsquashed => exact .squashed (cleared.inFlight hcoh hw hsquashed) (h.versions id w hw)
      · exact h.versions id w hw
  slots t ht id w' ho hw' := by
    rw [cleared.window] at ht
    obtain ⟨u, hu, rfl⟩ := List.mem_map.1 ht
    rw [Sequenced.occupant_cancelAfter] at ho
    obtain ⟨name, w, hname, hw⟩ := hcoh.exists_version hu
    obtain rfl := Option.some.inj (hname.symm.trans ho)
    rw [cleared.fetch, Fetch.get?_renewAfter hcoh.order.orderly b hw, Option.some.injEq] at hw'
    have htimes : w'.times = w.times := by
      rw [← hw']
      split <;> rfl
    rw [Slot.Matches, htimes, u.times_cancelAfter]
    exact h.slots u hu name w ho hw

theorem runs (h : Dated m) (hcoh : Coherent code m) (hf : Faithful m) (run : m.Runs i k st s v m') :
    Dated m' := by
  have stage := hf.stage _ _ _ _ _ run.mans
  rw [if_neg run.more] at stage
  obtain ⟨i, x, hv, hs⟩ := h.times_issued hcoh run.toAwaits stage
  have hslot : ∀ t ∈ m.rob.window, t.occupant = some v.id → t = s := fun t ht ho =>
    hcoh.slot_of_occupant ht run.mem (ho.trans run.occupant.symm)
  have hrole := s.ran_sameRole run.isLive m.cycle st.remaining
  have hwindow := revised hslot hrole.occupant
  rw [← run.window] at hwindow
  have hbegun : ∃ y, (s.begun m.cycle).times = ⟨some i, some y, none, none, none⟩ := by
    rw [Slot.begun]
    cases x with
    | none => exact ⟨m.cycle, by rw [if_pos (by simp [hs]), Slot.started, hs]⟩
    | some y => exact ⟨y, by rw [if_neg (by simp [hs]), hs]⟩
  obtain ⟨y, hy⟩ := hbegun
  have hfetch := run.fetch
  split at hfetch
  · next hone =>
    have hrecords : Stage.Records .executed (s.ran m.cycle st.remaining).times := by
      rw [Slot.ran, if_pos hone, Slot.executed, hy]
      exact .executed i y m.cycle
    exact h.moved hrecords (fun id => by rw [hfetch, Fetch.get?_modify]) hwindow
  · next hmany =>
    refine ⟨hfetch ▸ h.versions, fun t ht id w ho hw => ?_⟩
    rw [hfetch] at hw
    rcases hwindow t ht with ⟨hto, htimes⟩ | ⟨hto, u, hu, huo, hut⟩
    · obtain rfl := Option.some.inj (hto.symm.trans ho)
      obtain rfl := Option.some.inj ((hcoh.order.orderly.get?_current run.current).symm.trans hw)
      refine .inr ⟨by rw [hv], y, ?_⟩
      rw [htimes, Slot.ran, if_neg hmany, hy, hv]
    · rw [Slot.Matches, ← hut]
      exact h.slots u hu id w (huo.trans ho) hw

theorem enters (h : Dated m) (hcoh : Coherent code m) {left : Operand} {right : Option Operand}
    (entered : m.Enters v i st left right tag m') : Dated m' := by
  have hget : ∀ id, m'.fetch.get? id = if v.id = id then
      (m.fetch.get? id).map (Sequenced.moved .issued (Slot.issued v tag m.cycle).times)
      else m.fetch.get? id := fun id => by
    rw [entered.fetch]
    exact Fetch.get?_modify ..
  refine h.moved (.issued m.cycle) hget fun t ht => ?_
  rw [entered.window] at ht
  rcases List.mem_append.1 ht with ht | ht
  · exact .inr ⟨hcoh.order.occupant_ne_next entered.next t ht, t, ht, rfl, rfl⟩
  · rw [List.mem_singleton.1 ht]
    exact .inl ⟨rfl, rfl⟩

theorem commits (h : Dated m) (hcoh : Coherent code m) {rest : List Slot} (left : m.Leaves s rest m')
    (live : s.isLive = true) (ready : s.ready = true) (occupant : s.occupant = some v.id)
    (current : m.fetch.current? v.id.position = some v)
    (fetch : m'.fetch = m.fetch.modify v.id (Sequenced.moved .committed (s.completed m.cycle).times)) :
    Dated m' := by
  obtain ⟨i, x, d, w, hv, htimes⟩ := h.times_written hcoh left.mem_head live ready occupant current
  have hrecords : Stage.Records .committed (s.completed m.cycle).times := by
    rw [Slot.completed, htimes, hv]
    exact .committed i x d w m.cycle
  refine h.moved hrecords (fun id => by rw [fetch, Fetch.get?_modify]) fun t ht => ?_
  exact .inr ⟨occupant ▸ left.occupant_ne hcoh ht, t, left.mem ht, rfl, rfl⟩

theorem turn (h : Dated m) (hcoh : Coherent code m) (hf : Faithful m) (ht : m.Turn m') : Dated m' := by
  rcases ht with turn | turn | turn | turn
  case write =>
    cases turn with
    | idle => exact h
    | gives given => exact h.gives hcoh hf given
    | clears given cleared => exact (h.gives hcoh hf given).clears (hcoh.move given.move) cleared
  case execute =>
    cases turn with
    | rests => exact h
    | waits => exact ⟨h.versions, h.slots⟩
    | runs run => exact h.runs hcoh hf run
  case issue =>
    cases turn with
    | ended => exact h
    | stalls => exact ⟨h.versions, h.slots⟩
    | enters entered => exact h.enters hcoh entered
  case commit =>
    cases turn with
    | empty | early => exact h
    | commits left _ _ live may occupant current _ fetch =>
      have ready := (Bool.and_eq_true_iff.1 may).1
      exact h.commits hcoh left live ready occupant current fetch
    | discards left _ _ _ fetch =>
      refine ⟨fetch ▸ h.versions, fun t ht => ?_⟩
      rw [fetch]
      exact h.slots t (left.mem ht)

end Dated

theorem Session.Reached.dated {config : Config} {code : List Instruction} {trace : List Deed} {s : Session}
    (hc : config.Admitted) (h : Session.Reached config code trace s) : Dated s.machine := by
  have hboth := h.keeps_turns hc (fun m => Faithful m ∧ Dated m)
    (fun _ hm => ⟨.start (fresh_of_initial hc hm).window,
      .start (fresh_of_initial hc hm).window (fresh_of_initial hc hm).fetch⟩)
    (fun _ _ hcore hk => ⟨hk.1.of_core hcore, hk.2.of_core hcore⟩)
    fun _ _ hcoh hk ht => ⟨hk.1.turn hcoh ht, hk.2.turn hcoh hk.1 ht⟩
  exact hboth.2

end OutOfOrder
