import OutOfOrder.Proofs.Timesheet
import Mathlib.Logic.Relation

/-!
What the histories keep of the times of a slot. A slot hands its times over as its version moves on, so the start of
an execution goes along with its end: while the execution lasts it is missing, and if a branch cancels the slot by
then it is lost. All else stays on record for good.
-/

set_option autoImplicit false

namespace OutOfOrder

open Machine

namespace Times

/-- What goes along when a version moves on. -/
def handed (t : Times) : Times := { t with execute := if t.executeDone.isSome then t.execute else .none }

/-- Nothing is missing unless an execution has begun and not ended. -/
theorem handed_eq_iff (t : Times) : t.handed = t ↔ (t.executeDone = .none → t.execute = .none) := by
  obtain ⟨i, x, d, w, c⟩ := t
  cases d <;> simp [handed, eq_comm]

/-- Every cycle of the one is a cycle of the other. -/
structure KeptIn (t t' : Times) : Prop where
  issue : ∀ c, t.issue = some c → t'.issue = some c
  execute : ∀ c, t.execute = some c → t'.execute = some c
  executeDone : ∀ c, t.executeDone = some c → t'.executeDone = some c
  write : ∀ c, t.write = some c → t'.write = some c
  commit : ∀ c, t.commit = some c → t'.commit = some c

namespace KeptIn

variable {t t' t'' : Times}

theorem refl (t : Times) : t.KeptIn t := ⟨fun _ h => h, fun _ h => h, fun _ h => h, fun _ h => h, fun _ h => h⟩

theorem trans (h : t.KeptIn t') (h' : t'.KeptIn t'') : t.KeptIn t'' where
  issue c hc := h'.issue c (h.issue c hc)
  execute c hc := h'.execute c (h.execute c hc)
  executeDone c hc := h'.executeDone c (h.executeDone c hc)
  write c hc := h'.write c (h.write c hc)
  commit c hc := h'.commit c (h.commit c hc)

/-- One of the records changes. -/
theorem update {f : InstanceId → Times} {id : InstanceId} (h : (f id).KeptIn t) (other : InstanceId) :
    (f other).KeptIn (Function.update f id t other) := by
  rw [Function.update_apply]
  split
  · next he => exact he ▸ h
  · exact .refl _

end KeptIn

end Times

/-- No version has the start of an execution on record without its end. -/
theorem Stage.Records.execute_eq_none {stage : Stage} {t : Times} (h : stage.Records t)
    (hd : t.executeDone = none) : t.execute = none := by
  induction h with
  | unissued | issued => rfl
  | executed | written | committed => simp at hd
  | squashed _ _ ih => exact ih hd

theorem Slot.Matches.handed {s : Slot} {v : Instance} (h : s.Matches v) (hrecords : v.stage.Records v.times) :
    v.times = s.times.handed := by
  rcases h with h | ⟨hd, x, h⟩
  · rw [h]
    exact ((Times.handed_eq_iff _).2 hrecords.execute_eq_none).symm
  · have hnone := hrecords.execute_eq_none hd
    rw [h, Times.handed]
    cases ht : v.times
    simp_all

/-! ### What is on record stays -/

namespace Documented

variable {code : List Instruction} {m m' : Machine}

theorem gives_keeps {i k : Nat} {st : Station} {s : Slot} {v : Instance} {tag : Tag} {result : Word}
    (h : Documented code m) (given : m.Gives i k st s v tag result m') (id : InstanceId) :
    (m.fetch.timesOf id).KeptIn (m'.fetch.timesOf id) := by
  obtain ⟨c, x, d, hv, -⟩ := h.times_given given
  rw [h.gives given]
  refine .update ?_ id
  rw [hv]
  exact ⟨fun _ h => h, fun _ h => h, fun _ h => h, nofun, nofun⟩

theorem turn_keeps (h : Documented code m) (ht : m.Turn m') (id : InstanceId) :
    (m.fetch.timesOf id).KeptIn (m'.fetch.timesOf id) := by
  rcases ht with turn | turn | turn | turn
  case write =>
    cases turn with
    | idle => exact .refl _
    | gives given => exact h.gives_keeps given id
    | clears given cleared =>
      rw [(h.turn (.write (.gives given))).clears cleared]
      exact h.gives_keeps given id
  case execute =>
    cases turn with
    | rests | waits => exact .refl _
    | runs run =>
      obtain ⟨c, hv, hissue, hs⟩ := h.times_ran run
      rw [h.runs run]
      split
      · refine .update ?_ id
        rw [hv, hs]
        exact ⟨fun _ h => h, nofun, nofun, nofun, nofun⟩
      · exact .refl _
  case issue =>
    cases turn with
    | ended | stalls => exact .refl _
    | enters entered =>
      obtain ⟨hv, htimes⟩ := h.enters entered
      rw [htimes]
      refine .update ?_ id
      rw [hv]
      exact ⟨nofun, nofun, nofun, nofun, nofun⟩
  case commit =>
    cases turn with
    | empty | early => exact .refl _
    | discards left _ _ _ fetch => exact fetch ▸ .refl _
    | commits left _ _ live may occupant current _ fetch =>
      have ready := (Bool.and_eq_true_iff.1 may).1
      obtain ⟨i, x, d, w, hv, -⟩ := h.dated.times_written h.coherent left.mem_head live ready occupant current
      rw [← (h.records current).1] at hv
      rw [(h.commits left live ready occupant current fetch).2]
      refine .update ?_ id
      rw [hv]
      exact ⟨fun _ h => h, fun _ h => h, fun _ h => h, fun _ h => h, nofun⟩

theorem runCycle_keeps (h : Documented code m) (hm : m.runCycle = .ok m') (id : InstanceId) :
    (m.fetch.timesOf id).KeptIn (m'.fetch.timesOf id) := by
  obtain ⟨last, ⟨-, hkept⟩, rfl⟩ := Machine.runCycle_keeps
    (fun n => Documented code n ∧ (m.fetch.timesOf id).KeptIn (n.fetch.timesOf id))
    (fun n n' _ hn turn => ⟨hn.1.turn turn, hn.2.trans (hn.1.turn_keeps turn id)⟩) h.coherent
    ⟨h.of_core h.coherent.tick m.sameCore_tick, .refl _⟩ hm
  rw [last.sameCore_settle.fetch]
  exact hkept

end Documented

namespace Session.Reached

variable {config : Config} {code : List Instruction} {trace : List Deed} {s s' : Session} {id : InstanceId}
  {v : Instance}

/-- A step takes no version away and none of its times; nothing at all happens to one that has left the machine. -/
theorem step_keeps (hc : config.Admitted) (h : Reached config code trace s) (hs : s.step = .ok (s', .ok ()))
    (hv : s.machine.fetch.get? id = some v) : ∃ v', s'.machine.fetch.get? id = some v' ∧
      v.times.KeptIn v'.times ∧ (v.stage.isFinal = true → v' = v) := by
  rcases step_eq hs with ⟨-, rfl⟩ | ⟨-, m, hm, he⟩
  · exact ⟨v, hv, .refl _, fun _ => rfl⟩
  · obtain ⟨v', hv', -, hfinal⟩ := ((h.coherent hc).versions_runCycle (h.faithful hc) (h.stamped hc) hm).1 id v hv
    have hkept := (h.documented hc).runCycle_keeps hm id
    rw [Fetch.timesOf_eq hv, Fetch.timesOf_eq hv'] at hkept
    exact ⟨v', he ▸ hv', hkept, hfinal⟩

theorem steps_keep (hc : config.Admitted) (h : Reached config code trace s)
    (hleads : Relation.ReflTransGen (fun a b => a.step = .ok (b, .ok ())) s s')
    (hv : s.machine.fetch.get? id = some v) : (∃ trace', Reached config code trace' s') ∧
      ∃ v', s'.machine.fetch.get? id = some v' ∧ v.times.KeptIn v'.times ∧ (v.stage.isFinal = true → v' = v) := by
  induction hleads with
  | refl => exact ⟨⟨trace, h⟩, v, hv, .refl _, fun _ => rfl⟩
  | tail _ hstep ih =>
    obtain ⟨⟨trace', hreached⟩, w, hw, hkept, hfinal⟩ := ih
    obtain ⟨w', hw', hkept', hfinal'⟩ := hreached.step_keeps hc hstep hw
    refine ⟨⟨_, hreached.step hstep⟩, w', hw', hkept.trans hkept', fun hstage => ?_⟩
    obtain rfl := hfinal hstage
    exact hfinal' hstage

end Session.Reached

theorem Session.leads_of_traced {n : Nat} {trace : List Deed} {s s' : Session} (h : s.traced n = some (trace, s')) :
    Relation.ReflTransGen (fun a b => a.step = .ok (b, .ok ())) s s' := by
  induction n generalizing s trace with
  | zero =>
    simp only [traced, Option.some.injEq, Prod.mk.injEq] at h
    exact h.2 ▸ .refl
  | succ n ih =>
    unfold traced at h
    split at h
    · next hstep =>
      obtain ⟨⟨rest, last⟩, hrest, he⟩ := Option.map_eq_some_iff.1 h
      obtain rfl := (Prod.mk.inj he).2
      exact .head hstep (ih hrest)
    · simp at h

/-- Whatever is in flight, cancelled or not, is a version in the histories with the times that the slot has handed
over: all of them once the slot is ready to leave by a commit. They stay on record, however long the run goes on and
whatever is in the slot by then; a cancelled slot hands nothing over any more. -/
theorem slots_hand_over_times {config : Config} {code : List Instruction} {trace : List Deed} {s : Session}
    (hc : config.Admitted) (h : Session.Reached config code trace s) {i : Nat} {slot : Slot}
    (hslot : s.machine.rob.slots[i]? = some slot) (hbusy : slot.busy = true) :
    ∃ id v, slot.occupant = some id ∧ s.machine.fetch.get? id = some v ∧ v.times = slot.times.handed ∧
      (v.times = slot.times ↔ (slot.times.executeDone = none → slot.times.execute = none)) ∧
      (slot.isLive = true → slot.ready = true → v.times = slot.times) ∧
      ∀ s', Relation.ReflTransGen (fun a b => a.step = .ok (b, .ok ())) s s' →
        ∃ v', s'.machine.fetch.get? id = some v' ∧ v.times.KeptIn v'.times ∧ (slot.isLive = false → v' = v) := by
  have hd := h.documented hc
  have hmem := hd.coherent.mem_window_of_busy (Array.mem_of_getElem? hslot) hbusy
  obtain ⟨id, v, ho, hv⟩ := hd.coherent.exists_version hmem
  have hrecords := hd.dated.versions id v hv
  have hhanded := (hd.dated.slots slot hmem id v ho hv).handed hrecords
  refine ⟨id, v, ho, hv, hhanded, ?_, fun hlive hready => ?_, fun s' hleads => ?_⟩
  · rw [hhanded, Times.handed_eq_iff]
  · obtain ⟨w, hw, current⟩ := hd.coherent.exists_current hmem hlive
    obtain rfl := Option.some.inj (hw.symm.trans ho)
    obtain rfl := Option.some.inj ((hd.coherent.order.orderly.get?_current current).symm.trans hv)
    obtain ⟨-, -, -, -, -, htimes⟩ := hd.dated.times_written hd.coherent hmem hlive hready hw current
    exact htimes.symm
  · obtain ⟨-, v', hv', hkept, hfinal⟩ := h.steps_keep hc hleads hv
    refine ⟨v', hv', hkept, fun hdead => hfinal ?_⟩
    obtain ⟨id', w, hid, hw, hstage⟩ := hd.coherent.order.cancelled slot hmem hdead
    obtain rfl := Option.some.inj (hid.symm.trans ho)
    obtain rfl := Option.some.inj (hw.symm.trans hv)
    rw [hstage]
    rfl

/-- The branch is taken in the seventh cycle. By then the load behind it has been executing since the fourth, which
only its cancelled slot knows. -/
theorem slots_hand_over_times_branch : ∃ (config : Config) (code : List Instruction) (trace : List Deed)
    (s : Session) (slot : Slot) (v : Instance), config.Admitted ∧ Session.Reached config code trace s ∧
      s.machine.rob.slots[2]? = some slot ∧ slot.busy = true ∧ slot.isLive = false ∧
      slot.times = ⟨some 3, some 4, none, none, none⟩ ∧ v.times = ⟨some 3, none, none, none, none⟩ ∧
      ∀ s', Relation.ReflTransGen (fun a b => a.step = .ok (b, .ok ())) s s' →
        s'.machine.fetch.get? ⟨2, 0⟩ = some v := by
  let mul : Instruction := ⟨.mul, some ⟨1⟩, ⟨2⟩, some ⟨3⟩, 0, []⟩
  let branch : Instruction := ⟨.beq, none, ⟨1⟩, some ⟨1⟩, 0, []⟩
  let load : Instruction := ⟨.load, some ⟨4⟩, ⟨0⟩, none, 8, []⟩
  let config : Config := { Config.standard with memorySize := 0 }
  have hadmitted : config.Admitted := ⟨by decide, by decide, by decide⟩
  have hrun : ∃ r ∈ Session.tracedRun config [mul, branch, load] 7, ∃ slot ∈ r.2.machine.rob.slots[2]?,
      slot.busy = true ∧ slot.isLive = false ∧ slot.occupant = some ⟨2, 0⟩ ∧
        slot.times = ⟨some 3, some 4, none, none, none⟩ := by
    decide +kernel
  obtain ⟨⟨trace, s⟩, hr, slot, hslot, hbusy, hdead, ho, htimes⟩ := hrun
  have hreached := Session.Reached.of_tracedRun hr
  obtain ⟨id, v, hid, -, hhanded, -, -, hlater⟩ := slots_hand_over_times hadmitted hreached hslot hbusy
  obtain rfl := Option.some.inj (hid.symm.trans ho)
  refine ⟨config, _, trace, s, slot, v, hadmitted, hreached, hslot, hbusy, hdead, htimes, ?_, fun s' hleads => ?_⟩
  · rw [hhanded, htimes]
    rfl
  · obtain ⟨v', hv', -, hsame⟩ := hlater s' hleads
    rw [hv', hsame hdead]

/-- In a buffer of three slots the next additions take the place of the cancelled load, and then no slot and no
version knows of the cycle in which its execution began. -/
theorem start_of_execution_lost : ∃ (config : Config) (code : List Instruction) (trace : List Deed)
    (s s' : Session) (slot : Slot) (v : Instance), config.Admitted ∧ Session.Reached config code trace s ∧
      s.machine.rob.slots[2]? = some slot ∧ slot.busy = true ∧ slot.occupant = some ⟨2, 0⟩ ∧
      s.machine.fetch.get? ⟨2, 0⟩ = some v ∧ slot.times.execute = some 4 ∧ v.times.execute = none ∧
      Relation.ReflTransGen (fun a b => a.step = .ok (b, .ok ())) s s' ∧ s'.isComplete = true ∧
      s'.machine.fetch.get? ⟨2, 0⟩ = some v ∧ ∀ t ∈ s'.machine.rob.slots, t.times.execute ≠ some 4 := by
  let mul : Instruction := ⟨.mul, some ⟨1⟩, ⟨2⟩, some ⟨3⟩, 0, []⟩
  let branch : Instruction := ⟨.beq, none, ⟨1⟩, some ⟨1⟩, 0, []⟩
  let load : Instruction := ⟨.load, some ⟨4⟩, ⟨0⟩, none, 8, []⟩
  let add : Instruction := ⟨.add, some ⟨5⟩, ⟨2⟩, some ⟨3⟩, 0, []⟩
  let config : Config := { Config.standard with memorySize := 0, robCapacity := 3 }
  have hadmitted : config.Admitted := ⟨by decide, by decide, by decide⟩
  have hrun : ∃ r ∈ Session.tracedRun config [mul, branch, load, add, add] 7,
      ∃ slot ∈ r.2.machine.rob.slots[2]?, ∃ v ∈ r.2.machine.fetch.get? ⟨2, 0⟩,
        slot.busy = true ∧ slot.occupant = some ⟨2, 0⟩ ∧ slot.times.execute = some 4 ∧ v.times.execute = none ∧
        ∃ later ∈ r.2.traced 9, later.2.isComplete = true ∧ later.2.machine.fetch.get? ⟨2, 0⟩ = some v ∧
          ∀ t ∈ later.2.machine.rob.slots, t.times.execute ≠ some 4 := by
    decide +kernel
  obtain ⟨⟨trace, s⟩, hr, slot, hslot, v, hv, hbusy, ho, hknown, hmissing, ⟨more, s'⟩, hlater, hdone, hlast, hlost⟩ :=
    hrun
  exact ⟨config, _, trace, s, s', slot, v, hadmitted, .of_tracedRun hr, hslot, hbusy, ho, hv, hknown, hmissing,
    Session.leads_of_traced hlater, hdone, hlast, hlost⟩

end OutOfOrder
