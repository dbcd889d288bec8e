import OutOfOrder.Proofs.Run

/-!
Which unit a station belongs to never changes: the table keeps the layout of its configuration.
-/

set_option autoImplicit false

namespace OutOfOrder

def StationTable.units (t : StationTable) : List FunctionalUnit := t.stations.toList.map Station.unit

namespace StationTable

variable {t t' : StationTable}

theorem getElem?_units (t : StationTable) (i : Nat) : t.units[i]? = t.stations[i]?.map Station.unit := by
  simp [units]

theorem mem_units {unit : FunctionalUnit} :
    unit ∈ t.units ↔ ∃ (i : Nat) (st : Station), t.stations[i]? = some st ∧ st.unit = unit := by
  simp only [List.mem_iff_getElem?, getElem?_units, Option.map_eq_some_iff]

theorem idleIn_ne_none {unit : FunctionalUnit} {i : Nat} {st : Station} (hi : t.stations[i]? = some st)
    (hu : st.unit = unit) (hb : st.busy = false) : t.idleIn unit ≠ none := by
  intro hnone
  have hbusy := Array.findIdx?_eq_none_iff.1 hnone st (Array.mem_of_getElem? hi)
  simp [hu, hb] at hbusy

theorem units_eq_of_getElem? {f : Nat → Station → Station} (hf : ∀ j st, (f j st).unit = st.unit)
    (h : ∀ j : Nat, t'.stations[j]? = t.stations[j]?.map (f j)) : t'.units = t.units := by
  refine List.ext_getElem? fun j => ?_
  rw [getElem?_units, getElem?_units, h, Option.map_map]
  congr 1
  funext st
  exact hf j st

theorem units_modify (t : StationTable) (i : Nat) {f : Station → Station}
    (hf : ∀ st, (f st).unit = st.unit) : (t.modify i f).units = t.units := by
  refine units_eq_of_getElem? (f := fun j st => if i = j then f st else st) ?_ fun j => ?_
  · intro j st
    split
    · exact hf st
    · rfl
  · rw [getElem?_stations_modify]
    split <;> simp

theorem units_release (t : StationTable) (i : Nat) : (t.release i).units = t.units :=
  t.units_modify i fun _ => rfl

theorem units_broadcast (t : StationTable) (tag : Tag) (value : Word) :
    (t.broadcast tag value).units = t.units := by
  refine units_eq_of_getElem? (f := fun _ st => if st.busy then st.snoop tag value else st) ?_ fun j => ?_
  · intro j st
    split <;> rfl
  · simp [broadcast]

theorem units_ofCounts (counts : FunctionalUnit → Nat) : (ofCounts counts).units =
    FunctionalUnit.all.flatMap fun unit => List.replicate (counts unit) unit := by
  simp [units, ofCounts, List.map_flatMap, Station.idle, Function.comp_def, List.map_const']

end StationTable

variable {code : List Instruction} {m m' : Machine} {d : List Deed}

theorem Coherent.units_of_move (h : Coherent code m) (hm : m.Move d m') :
    m'.stations.units = m.stations.units := by
  cases h.change hm
  case compute =>
    dsimp only
    rw [StationTable.units_release, StationTable.units_broadcast]
  case squash done =>
    refine StationTable.units_eq_of_getElem? (fun _ st => ?_) done.vacated
    unfold Staffed.vacate
    split <;> rfl
  case countdown | complete | issue => exact StationTable.units_modify _ _ fun _ => rfl
  case wait | start | restart | stall | commit | discard => rfl

theorem Coherent.units_of_moves (h : Coherent code m) (hm : m.Moves d m') :
    m'.stations.units = m.stations.units := by
  induction hm with
  | refl => rfl
  | step first _ ih => exact (ih (h.move first)).trans (h.units_of_move first)

theorem StationTable.count_units_ofCounts (counts : FunctionalUnit → Nat) (unit : FunctionalUnit) :
    (ofCounts counts).units.count unit = counts unit := by
  rw [units_ofCounts]
  cases unit <;> simp [FunctionalUnit.all, List.count_replicate]

/-- As many slots, registers and stations as the configuration says. -/
structure Machine.Equipped (config : Config) (m : Machine) : Prop where
  slots : m.rob.capacity = config.robCapacity.toNat
  registers : m.physical.count = config.highestPhys.toNat + 1
  stations : ∀ unit, m.stations.units.count unit = config.stations unit

theorem Config.Admitted.physCount_eq {config : Config} (hc : config.Admitted) :
    config.physCount = config.highestPhys.toNat + 1 := by
  have hle := hc.highestPhys_le
  rw [Config.physCount, UInt16.toNat_add, UInt16.toNat_one]
  exact Nat.mod_eq_of_lt (by omega)

theorem Machine.Equipped.moves {config : Config} (h : m.Equipped config) (hcoh : Coherent code m)
    (hm : m.Moves d m') : m'.Equipped config where
  slots := hm.steady.capacity.trans h.slots
  registers := hm.steady.physical.trans h.registers
  stations := by
    rw [hcoh.units_of_moves hm]
    exact h.stations

theorem Machine.Equipped.of_core {config : Config} (h : m.Equipped config) (hs : SameCore m m') :
    m'.Equipped config :=
  ⟨hs.rob ▸ h.slots, hs.physical ▸ h.registers, hs.stations ▸ h.stations⟩

theorem Machine.equipped_of_initial {config : Config} (hc : config.Admitted)
    (h : Machine.initial config code = .ok m) : m.Equipped config := by
  have hfresh := Machine.fresh_of_initial hc h
  refine ⟨hfresh.capacity, ?_, fun unit => ?_⟩
  · simp [hfresh.physical, PhysicalFile.ofCount, PhysicalFile.count, hc.physCount_eq]
  · rw [hfresh.stations, StationTable.count_units_ofCounts]

theorem Session.Reached.equipped {config : Config} {trace : List Deed} {s : Session}
    (hc : config.Admitted) (h : Session.Reached config code trace s) : s.machine.Equipped config :=
  h.keeps hc (fun _ m => m.Equipped config) (fun _ hm => Machine.equipped_of_initial hc hm)
    (fun _ _ _ hs he => he.of_core hs) fun _ _ _ _ hcoh he hm => he.moves hcoh (.single hm)

end OutOfOrder
