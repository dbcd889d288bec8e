import Mathlib.Combinatorics.Enumerative.DoubleCounting
import Mathlib.Order.Interval.Finset.Nat
import OutOfOrder.Proofs.Timing
import OutOfOrder.Proofs.Units

/-!
How many stations are busy, counted by the positions that they work for; and so what is free in a cycle, counted
by a timetable.
-/

set_option autoImplicit false

namespace OutOfOrder

open Machine

variable {code : List Instruction} {m m' : Machine}

/-! ### Stations -/

theorem countP_range_getElem? {α : Type} (xs : List α) (p : α → Bool) :
    ((List.range xs.length).countP fun i => xs[i]?.any p) = xs.countP p := by
  induction xs using List.reverseRecOn with
  | nil => rfl
  | append_singleton xs x ih =>
    have hsame : ((List.range xs.length).countP fun i => (xs ++ [x])[i]?.any p) =
        (List.range xs.length).countP fun i => xs[i]?.any p := by
      refine List.countP_congr fun i hi => ?_
      rw [List.getElem?_append_left (List.mem_range.1 hi)]
    rw [List.length_append, List.length_singleton, List.range_succ, List.countP_append, hsame, ih,
      List.countP_append]
    simp

namespace StationTable

variable {t : StationTable} {unit : FunctionalUnit}

/-- The places of the stations that the predicate holds of. -/
def places (t : StationTable) (p : Station → Bool) : Finset Nat :=
  (Finset.range t.size).filter fun i => t.stations[i]?.any p = true

theorem mem_places {p : Station → Bool} {i : Nat} :
    i ∈ t.places p ↔ ∃ st, t.stations[i]? = some st ∧ p st = true := by
  rw [places, Finset.mem_filter, Finset.mem_range, Option.any_eq_true]
  refine ⟨fun h => h.2, fun ⟨st, hst, hp⟩ => ⟨(Array.getElem?_eq_some_iff.1 hst).1, st, hst, hp⟩⟩

theorem card_places (t : StationTable) (p : Station → Bool) :
    (t.places p).card = (List.range t.size).countP fun i => t.stations[i]?.any p := by
  rw [places, ← List.toFinset_range, ← List.toFinset_filter,
    List.toFinset_card_of_nodup (List.nodup_range.filter _), List.countP_eq_length_filter]

theorem card_places_unit (t : StationTable) (unit : FunctionalUnit) :
    (t.places fun st => st.unit == unit).card = t.units.count unit := by
  have hcount := countP_range_getElem? t.stations.toList fun st => st.unit == unit
  rw [card_places, size, units, List.count, List.countP_map]
  simpa [Function.comp_def] using hcount

/-- A station of the unit is idle as long as not all of them are busy. -/
theorem exists_idle_iff : t.idleIn unit ≠ none ↔
    (t.places fun st => st.busy && st.unit == unit).card < t.units.count unit := by
  have hsub : (t.places fun st => st.busy && st.unit == unit) ⊆ t.places fun st => st.unit == unit := by
    intro i hi
    obtain ⟨st, hst, hp⟩ := mem_places.1 hi
    exact mem_places.2 ⟨st, hst, (Bool.and_eq_true_iff.1 hp).2⟩
  rw [← card_places_unit]
  constructor
  · intro hne
    obtain ⟨i, hi⟩ := Option.ne_none_iff_exists'.1 hne
    obtain ⟨hlt, hp, -⟩ := Array.findIdx?_eq_some_iff_getElem.1 hi
    rw [Bool.and_eq_true] at hp
    refine Finset.card_lt_card (hsub.ssubset_of_mem_notMem (a := i) ?_ ?_)
    · exact mem_places.2 ⟨_, Array.getElem?_eq_getElem hlt, hp.1⟩
    · intro hbusy
      obtain ⟨st, hst, hb⟩ := mem_places.1 hbusy
      obtain rfl := Option.some.inj ((Array.getElem?_eq_getElem hlt).symm.trans hst)
      simp_all
  · intro hlt hnone
    refine absurd (Finset.card_le_card fun i hi => ?_) (Nat.not_le.2 hlt)
    obtain ⟨st, hst, hu⟩ := mem_places.1 hi
    have hb := Array.findIdx?_eq_none_iff.1 hnone st (Array.mem_of_getElem? hst)
    exact mem_places.2 ⟨st, hst, by simpa [hu] using hb⟩

end StationTable

/-! ### The positions that stations work for -/

namespace Machine

variable {i j k l : Nat} {st st' : Station} {s u : Slot} {v w : Instance}

theorem Mans.position_unique (h : Coherent code m) (hm : m.Mans i st k s v) (hm' : m.Mans i st' l u w) :
    v.id.position = w.id.position := by
  obtain rfl := Option.some.inj (hm.station.symm.trans hm'.station)
  have hs := h.slot_of_tag hm.mem hm'.mem (hm.named.trans hm'.named.symm)
  have ho := hm.occupant
  rw [hs, hm'.occupant] at ho
  rw [Option.some.inj ho]

theorem Mans.place_unique (h : Coherent code m) (hm : m.Mans i st k s v) (hm' : m.Mans j st' l u w)
    (heq : v.id.position = w.id.position) : i = j := by
  have hv := hm.current
  rw [heq, hm'.current] at hv
  obtain ⟨-, hs, -⟩ := Awaits.ext h hm.toAwaits hm'.toAwaits (congrArg Instance.id (Option.some.inj hv).symm)
  exact h.staffed.unique i j st st' hm.station hm'.station hm.busy hm'.busy
    (by rw [← hm.named, ← hm'.named, hs])

/-- To count busy stations, count the positions that they work for. -/
theorem card_places_eq (h : Coherent code m) {p : Station → Bool} {positions : Finset Nat}
    (hmans : ∀ i st k s v, m.Mans i st k s v → (p st = true ↔ v.id.position ∈ positions))
    (hpositions : ∀ q ∈ positions, ∃ i st k s v, m.Mans i st k s v ∧ v.id.position = q) :
    (m.stations.places fun st => st.busy && p st).card = positions.card := by
  let works : Nat → Nat → Prop := fun i q => ∃ st k s v, m.Mans i st k s v ∧ v.id.position = q
  refine Nat.le_antisymm (Finset.card_le_card_of_forall_subsingleton works ?_ ?_)
    (Finset.card_le_card_of_forall_subsingleton' works ?_ ?_)
  · intro i hi
    obtain ⟨st, hst, hp⟩ := StationTable.mem_places.1 hi
    rw [Bool.and_eq_true] at hp
    obtain ⟨k, s, v, hm⟩ := exists_mans h hst hp.1
    exact ⟨v.id.position, (hmans i st k s v hm).1 hp.2, st, k, s, v, hm, rfl⟩
  · rintro q - i ⟨-, st, k, s, v, hm, rfl⟩ j ⟨-, st', l, u, w, hm', heq⟩
    exact hm.place_unique h hm' heq.symm
  · intro q hq
    obtain ⟨i, st, k, s, v, hm, rfl⟩ := hpositions q hq
    refine ⟨i, StationTable.mem_places.2 ⟨st, hm.station, ?_⟩, st, k, s, v, hm, rfl⟩
    rw [hm.busy, (hmans i st k s v hm).2 hq]
    rfl
  · rintro i - q ⟨-, st, k, s, v, hm, rfl⟩ q' ⟨-, st', l, u, w, hm', rfl⟩
    exact hm.position_unique h hm'

end Machine

/-! ### What is free, by the timetable -/

namespace OnSchedule

variable {config : Config} {t : Timetable} {write issue commit c : Nat} {run : Nat → Nat} {v : Instance}

/-- A position that is still to write has a station that works for it. -/
theorem exists_mans (h : OnSchedule code t write run issue commit m) (ht : t.Solves config code)
    (hcoh : Coherent code m) (hcommit : commit < m.cycle) {q : Nat} (hq : q < m.fetch.pc)
    (hlate : m.cycle < (t q).write) : ∃ i st k s v, m.Mans i st k s v ∧ v.id.position = q := by
  have hpc := hcoh.order.pc_le
  have huncommitted : m.commits.toList.length ≤ q := by
    by_contra hlt
    obtain ⟨i, hobeys⟩ := ht.obeys (show q < code.length by omega)
    have hle := h.commit_le q (by omega)
    have hwrite := hobeys.write_lt_commit
    omega
  obtain ⟨s, hs, hl, ho⟩ := hcoh.order.exists_live huncommitted hq
  obtain ⟨w, -, hw, hposition⟩ := hcoh.order.idAt_eq (show q < code.length by omega)
  have hready : s.ready = false := by
    by_contra hr
    have hle := (h.written s hs (by simpa using hr) w.id (ho.trans hw)).2
    rw [hposition] at hle
    omega
  obtain ⟨k, hk⟩ := List.mem_iff_getElem?.1 hs
  obtain ⟨v, awaits⟩ := hcoh.awaits hk (Slot.isPending_eq_true.2 ⟨hl, hready⟩)
  obtain ⟨i, st, hm⟩ := exists_mans_of_awaits hcoh awaits
  have hid := Option.some.inj (awaits.occupant.symm.trans (ho.trans hw))
  exact ⟨i, st, k, s, v, hm, by rw [hid, hposition]⟩

theorem inFlight_eq (h : OnSchedule code t write run issue c m) (ht : t.Solves config code)
    (hcoh : Coherent code m) : t.inFlight m.fetch.pc (c + 1) = m.rob.window.length := by
  have hpc := hcoh.order.pc_le
  have hflight : ((Finset.range m.fetch.pc).filter fun q => c + 1 ≤ (t q).commit) =
      Finset.Ico m.commits.toList.length m.fetch.pc := by
    ext q
    rw [Finset.mem_filter, Finset.mem_range, Finset.mem_Ico]
    constructor
    · rintro ⟨hq, hlate⟩
      refine ⟨?_, hq⟩
      by_contra hlt
      have hle := h.commit_le q (by omega)
      omega
    · rintro ⟨hle, hq⟩
      have hfirst := h.lt_commit (by omega)
      rcases Nat.eq_or_lt_of_le hle with rfl | hlt
      · exact ⟨hq, hfirst⟩
      · have hlater := ht.commit_lt_commit hlt (by omega)
        exact ⟨hq, by omega⟩
  rw [Timetable.inFlight, hflight, Nat.card_Ico, hcoh.length_window h.live]

theorem occupied_eq (h : OnSchedule code t m.cycle run issue commit m) (ht : t.Solves config code)
    (hcoh : Coherent code m) (hcommit : commit < m.cycle) (unit : FunctionalUnit) :
    t.occupied code unit m.fetch.pc m.cycle =
      (m.stations.places fun st => st.busy && st.unit == unit).card := by
  refine (card_places_eq hcoh (fun i st k s v hm => ?_) fun q hq => ?_).symm
  · have hinstr := hcoh.order.orderly.instr_current hm.current
    simp [hm.issued, hinstr, (h.working i st k s v hm).2.2, (hm.serves hcoh).2.unit]
  · rw [Finset.mem_filter, Finset.mem_range] at hq
    exact h.exists_mans ht hcoh hcommit hq.1 hq.2.2

/-- The instruction at the cursor finds a slot, a station and a register when the timetable says so. -/
theorem admits_iff (h : OnSchedule code t m.cycle run c c m) (ht : t.Solves config code)
    (hcoh : Coherent code m) (he : m.Equipped config) (hcycle : m.cycle = c + 1)
    (instr : Instruction) : t.Admits config code m.fetch.pc instr m.cycle ↔
      m.rob.hasRoom = true ∧ m.stations.idleIn instr.opcode.unit ≠ none ∧ m.physical.allocate ≠ none := by
  have hroom : t.inFlight m.fetch.pc m.cycle < min config.robCapacity.toNat (config.highestPhys.toNat + 1) ↔
      m.rob.hasRoom = true ∧ m.physical.allocate ≠ none := by
    have hlength := hcoh.tags.length_add
    rw [hcycle, h.inFlight_eq ht hcoh, ← he.slots, ← he.registers, Nat.lt_min, hcoh.ring.hasRoom_eq,
      decide_eq_true_iff, Ne, hcoh.tags.allocate_eq_none_iff]
    omega
  have hstation : t.occupied code instr.opcode.unit m.fetch.pc m.cycle < config.stations instr.opcode.unit ↔
      m.stations.idleIn instr.opcode.unit ≠ none := by
    rw [h.occupied_eq ht hcoh (by omega), StationTable.exists_idle_iff, he.stations]
  have hturn : preceding (fun q => (t q).issue) m.fetch.pc < m.cycle := by
    cases hpc : m.fetch.pc with
    | zero => exact hcycle ▸ Nat.succ_pos c
    | succ p =>
      have hle := h.issue_le p (by omega)
      show (t p).issue < m.cycle
      omega
  constructor
  · exact fun ha => ⟨(hroom.1 ha.room).1, hstation.1 ha.station, (hroom.1 ha.room).2⟩
  · exact fun ⟨hslot, hidle, hregister⟩ => ⟨hturn, hroom.2 ⟨hslot, hregister⟩, hstation.2 hidle⟩

end OnSchedule

end OutOfOrder
