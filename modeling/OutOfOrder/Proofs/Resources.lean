import OutOfOrder.Proofs.Timekeeping

/-!
More slots, registers and stations never delay a run without a squash. Whatever lets an instruction enter the
smaller machine lets it enter the larger one, so position by position the one timetable stays ahead of the other.
-/

set_option autoImplicit false

namespace OutOfOrder

/-- The second configuration has the slots, registers and stations of the first, and may have more. -/
structure Config.Within (a b : Config) : Prop where
  slots : a.robCapacity ≤ b.robCapacity
  registers : a.highestPhys ≤ b.highestPhys
  stations : ∀ unit, a.stations unit ≤ b.stations unit

/-- None of the stages comes later than in the other entry. -/
structure Entry.NoLater (e e' : Entry) : Prop where
  issue : e.issue ≤ e'.issue
  execute : e.execute ≤ e'.execute
  executeDone : e.executeDone ≤ e'.executeDone
  write : e.write ≤ e'.write
  commit : e.commit ≤ e'.commit

namespace Timetable

variable {a b : Config} {code : List Instruction} {t t' : Timetable} {p c : Nat} {i : Instruction}

theorem preceding_le {f g : Nat → Nat} (h : ∀ q < p, f q ≤ g q) : preceding f p ≤ preceding g p := by
  cases p with
  | zero => exact Nat.le_refl 0
  | succ p => exact h p (Nat.lt_succ_self p)

theorem inFlight_le (h : ∀ q < p, (t' q).NoLater (t q)) : t'.inFlight p c ≤ t.inFlight p c := by
  refine Finset.card_le_card fun q hq => ?_
  rw [Finset.mem_filter, Finset.mem_range] at hq ⊢
  exact ⟨hq.1, Nat.le_trans hq.2 (h q hq.1).commit⟩

theorem occupied_le {unit : FunctionalUnit} (h : ∀ q < p, (t' q).NoLater (t q)) :
    t'.occupied code unit p c ≤ t.occupied code unit p c := by
  refine Finset.card_le_card fun q hq => ?_
  rw [Finset.mem_filter, Finset.mem_range] at hq ⊢
  exact ⟨hq.1, hq.2.1, Nat.lt_of_lt_of_le hq.2.2 (h q hq.1).write⟩

/-- What was free in time for the smaller machine is free in time for the larger one. -/
theorem Admits.mono (hab : a.Within b) (h : ∀ q < p, (t' q).NoLater (t q)) (hc : t.Admits a code p i c) :
    t'.Admits b code p i c where
  turn := Nat.lt_of_le_of_lt (preceding_le fun q hq => (h q hq).issue) hc.turn
  room := by
    have hslots := UInt16.le_iff_toNat_le.1 hab.slots
    have hregisters := UInt16.le_iff_toNat_le.1 hab.registers
    have hroom := hc.room
    have hle := inFlight_le (c := c) h
    omega
  station := Nat.lt_of_le_of_lt (occupied_le h) (Nat.lt_of_lt_of_le hc.station (hab.stations _))

theorem Obeys.noLater (hab : a.Within b) (h : ∀ q < p, (t' q).NoLater (t q)) (ht : t.Obeys a code p i)
    (ht' : t'.Obeys b code p i) : (t' p).NoLater (t p) := by
  have hissue : (t' p).issue ≤ (t p).issue := ht'.issue.2 (ht.issue.1.mono hab h)
  have hexecute : (t' p).execute ≤ (t p).execute := by
    obtain ⟨hlt, hproducers⟩ := ht.execute_le_iff.1 (Nat.le_refl _)
    refine ht'.execute_le_iff.2 ⟨Nat.lt_of_le_of_lt hissue hlt, fun q hq => ?_⟩
    obtain ⟨r, -, hr⟩ := mem_producers.1 hq
    exact Nat.le_trans (h q (lt_of_writerBefore hr)).write (hproducers q hq)
  have hwrite : (t' p).write ≤ (t p).write := by
    rw [ht.write, ht'.write]
    exact Nat.add_le_add_right hexecute _
  have hdone : (t' p).executeDone ≤ (t p).executeDone := by
    rw [ht.executeDone, ht'.executeDone]
    exact Nat.sub_le_sub_right hwrite 1
  have hcommit : (t' p).commit ≤ (t p).commit := by
    have hbefore : preceding (fun q => (t' q).commit) p ≤ preceding (fun q => (t q).commit) p :=
      preceding_le fun q hq => (h q hq).commit
    rw [ht.commit, ht'.commit]
    omega
  exact ⟨hissue, hexecute, hdone, hwrite, hcommit⟩

/-- The positions are compared one after the other: no entry depends on a later one. -/
theorem Solves.noLater (hab : a.Within b) (ht : t.Solves a code) (ht' : t'.Solves b code) :
    ∀ p < code.length, (t' p).NoLater (t p) := by
  intro p hp
  induction p using Nat.strong_induction_on with
  | _ p ih =>
    have hi := List.getElem?_eq_getElem hp
    exact Obeys.noLater hab (fun q hq => ih q hq (Nat.lt_trans hq hp)) (ht p _ hi) (ht' p _ hi)

end Timetable

/-- A run without a squash has recorded the times of a timetable, and ended with its last commit. -/
theorem Session.Reached.exists_timetable {config : Config} {code : List Instruction} {trace : List Deed}
    {s : Session} (hc : config.Admitted) (h : Session.Reached config code trace s)
    (hcomplete : s.isComplete = true) (hnone : s.machine.counters.squashed = 0) :
    ∃ t : Timetable, t.Solves config code ∧
      (∀ p < code.length, ∃ v, s.machine.fetch.current? p = some v ∧ v.times = (t p).times) ∧
      s.machine.finishedAt = some (preceding (fun p => (t p).commit) code.length) := by
  have hfinished := h.finished hc
  have hcount : s.machine.commits.toList.length = code.length := hfinished.complete_iff.1 hcomplete
  have hcoh := h.coherent hc
  have hpc : code.length ≤ s.machine.fetch.pc := hcount ▸ hcoh.order.commits_le
  obtain ⟨t, ht⟩ := Timetable.exists_solves hc fun i hi => by
    obtain ⟨p, hp⟩ := List.mem_iff_getElem?.1 hi
    have hlt := (List.getElem?_eq_some_iff.1 hp).1
    exact h.staffed_units hc p (Nat.lt_of_lt_of_le hlt hpc) i hp
  have hup := h.upToDate hc ht hnone
  exact ⟨t, ht, hcount ▸ hup.onSchedule.recorded, hup.finishedAt_eq hcoh hfinished hcomplete⟩

/-- With at least the same slots, registers and stations, and whatever else the configurations say, no position
of a run without a squash reaches any of its stages later, and so the run ends no later. -/
theorem resources_never_delay {a b : Config} {code : List Instruction} {trace trace' : List Deed}
    {s s' : Session} (ha : a.Admitted) (hb : b.Admitted) (hab : a.Within b)
    (h : Session.Reached a code trace s) (hcomplete : s.isComplete = true)
    (hnone : s.machine.counters.squashed = 0) (h' : Session.Reached b code trace' s')
    (hcomplete' : s'.isComplete = true) (hnone' : s'.machine.counters.squashed = 0) :
    (∀ p < code.length, ∃ v v' e e', s.machine.fetch.current? p = some v ∧ v.times = Entry.times e ∧
      s'.machine.fetch.current? p = some v' ∧ v'.times = Entry.times e' ∧ e'.NoLater e) ∧
    ∃ total total', s.machine.finishedAt = some total ∧ s'.machine.finishedAt = some total' ∧
      total' ≤ total := by
  obtain ⟨t, ht, hrecorded, hfinished⟩ := h.exists_timetable ha hcomplete hnone
  obtain ⟨t', ht', hrecorded', hfinished'⟩ := h'.exists_timetable hb hcomplete' hnone'
  have hle := ht.noLater hab ht'
  refine ⟨fun p hp => ?_, _, _, hfinished, hfinished', ?_⟩
  · obtain ⟨v, hv, htimes⟩ := hrecorded p hp
    obtain ⟨v', hv', htimes'⟩ := hrecorded' p hp
    exact ⟨v, v', t p, t' p, hv, htimes, hv', htimes', hle p hp⟩
  · exact Timetable.preceding_le fun q hq => (hle q hq).commit

/-- A second multiplier and a third slot: the third product need not wait for the second, and the run ends four
cycles earlier. -/
theorem resources_never_delay_multiplier : ∃ (a b : Config) (code : List Instruction)
    (trace trace' : List Deed) (s s' : Session), a.Admitted ∧ b.Admitted ∧ a.Within b ∧
      Session.Reached a code trace s ∧ s.isComplete = true ∧ s.machine.counters.squashed = 0 ∧
      Session.Reached b code trace' s' ∧ s'.isComplete = true ∧ s'.machine.counters.squashed = 0 ∧
      s.machine.finishedAt = some 14 ∧ ∃ total, s'.machine.finishedAt = some total ∧ total ≤ 14 := by
  let first : Instruction := ⟨.mul, some ⟨1⟩, ⟨2⟩, some ⟨3⟩, 0, []⟩
  let second : Instruction := ⟨.mul, some ⟨4⟩, ⟨5⟩, some ⟨6⟩, 0, []⟩
  let third : Instruction := ⟨.mul, some ⟨7⟩, ⟨1⟩, some ⟨2⟩, 0, []⟩
  let a : Config := { Config.standard with robCapacity := 2, mulStations := 1, memorySize := 0 }
  let b : Config := { Config.standard with robCapacity := 3, mulStations := 2, memorySize := 0 }
  have ha : a.Admitted := ⟨by decide, by decide, by decide⟩
  have hb : b.Admitted := ⟨by decide, by decide, by decide⟩
  have hab : a.Within b := ⟨by decide, by decide, fun unit => by cases unit <;> decide⟩
  have hrun : ∃ r ∈ Session.tracedRun a [first, second, third] 20, r.2.isComplete = true ∧
      r.2.machine.counters.squashed = 0 ∧ r.2.machine.finishedAt = some 14 := by
    decide +kernel
  have hrun' : ∃ r ∈ Session.tracedRun b [first, second, third] 20, r.2.isComplete = true ∧
      r.2.machine.counters.squashed = 0 := by
    decide +kernel
  obtain ⟨⟨trace, s⟩, hr, hcomplete, hnone, hfinished⟩ := hrun
  obtain ⟨⟨trace', s'⟩, hr', hcomplete', hnone'⟩ := hrun'
  have hreached := Session.Reached.of_tracedRun hr
  have hreached' := Session.Reached.of_tracedRun hr'
  obtain ⟨-, total, total', htotal, htotal', hle⟩ :=
    resources_never_delay ha hb hab hreached hcomplete hnone hreached' hcomplete' hnone'
  obtain rfl := Option.some.inj (hfinished.symm.trans htotal)
  exact ⟨a, b, _, trace, trace', s, s', ha, hb, hab, hreached, hcomplete, hnone, hreached', hcomplete',
    hnone', hfinished, total', htotal', hle⟩

end OutOfOrder
