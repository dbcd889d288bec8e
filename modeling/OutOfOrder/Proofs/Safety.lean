import OutOfOrder.Proofs.CommitOrder
import OutOfOrder.Proofs.Confinement
import OutOfOrder.Proofs.StraightRun

/-!
A machine that runs an accepted program breaks no contract of its components: a cycle completes, or it ends
in an arithmetic fault.
-/

set_option autoImplicit false

namespace OutOfOrder

theorem Circulates.index_lt {w : List Slot} {f : PhysicalFile} (h : Circulates w f)
    (hc : f.count ≤ UInt16.size) {tag : Tag} (ht : some tag ∈ w.map Slot.tag ++ f.free.map some) :
    tag.index.toNat < f.values.size := by
  rw [List.IsRotated.mem_iff h, List.mem_map] at ht
  obtain ⟨tag', hmem, heq⟩ := ht
  obtain rfl := Option.some.inj heq
  obtain ⟨i, hi, rfl⟩ := List.mem_map.1 hmem
  rw [List.mem_range] at hi
  have hsize : i < 65536 := Nat.lt_of_lt_of_le hi hc
  rw [UInt16.toNat_ofNat', Nat.mod_eq_of_lt hsize]
  exact hi

/-- Nothing is in flight that names what does not exist. -/
theorem Coherent.confined {code : List Instruction} {m : Machine} (h : Coherent code m)
    (hp : Provided code m) : m.Confined code where
  provided := hp
  instrs p instr hi := by
    obtain ⟨v, hv, rfl⟩ := Option.map_eq_some_iff.1 hi
    exact List.mem_of_getElem? (h.order.orderly.instr_current hv)
  tags i s tag hi hb ht := by
    have hmem := h.mem_window_of_busy (Array.mem_of_getElem? hi) hb
    exact h.tags.index_lt h.count_le (List.mem_append_left _ (List.mem_map.2 ⟨s, hmem, ht⟩))
  archs i s r hi hb hr := by
    obtain ⟨id, instr, -, hcode, -, harch⟩ :=
      h.order.holds s (h.mem_window_of_busy (Array.mem_of_getElem? hi) hb)
    exact hp instr (List.mem_of_getElem? hcode) r (Instruction.mem_registers_of_dest (harch ▸ hr))
  holders i st tag hi hb hd := by
    obtain ⟨k, s, hk, -, ht, -⟩ := h.staffed.serves i st hi hb
    exact h.tags.index_lt h.count_le
      (List.mem_append_left _ (List.mem_map.2 ⟨s, List.mem_of_getElem? hk, ht.trans hd⟩))
  free tag ht := h.tags.index_lt h.count_le (List.mem_append_right _ (List.mem_map_of_mem ht))

/-! ### Accepted programs -/

theorem Instruction.registers_le_of_misfit {highest : UInt16} {i : Instruction}
    (h : i.misfit highest = none) {r : Register} (hr : r ∈ i.registers) :
    r.index.toNat ≤ highest.toNat := by
  have hfind : i.registers.find? (fun r => decide (highest < r.index)) = none := by
    unfold misfit at h
    cases hm : i.missingOperand <;> simp_all
  have hle := List.find?_eq_none.1 hfind r hr
  simpa [UInt16.lt_iff_toNat_lt] using hle

theorem RegisterFile.count_preset (f : RegisterFile) (name : List Char) (value : Word) :
    (f.preset name value).count = f.count := by
  unfold preset
  split <;> simp [count]

theorem Machine.count_initialRegisters (config : Config) :
    (initialRegisters config).count = config.archCount := by
  have hstart : (RegisterFile.ofCount config.archCount).count = config.archCount := by
    simp [RegisterFile.ofCount, RegisterFile.count]
  refine List.foldlRecOn (motive := fun f : RegisterFile => f.count = config.archCount) _ _ hstart
    fun f hf v _ => ?_
  exact (f.count_preset v.1.toList v.2).trans hf

theorem Provided.of_core {code : List Instruction} {m m' : Machine} (h : Provided code m)
    (hs : SameCore m m') : Provided code m' := by
  unfold Provided
  rw [hs.registers]
  exact h

section

variable {config : Config} {code : List Instruction} {m : Machine}

theorem Provided.initial (hfit : Session.misfits config code = []) (h : Machine.initial config code = .ok m) :
    Provided code m := by
  intro i hi r hr
  have hmisfit : i.misfit config.highestArch = none := by
    have hnone := List.filterMap_eq_nil_iff.1 hfit i hi
    simpa using hnone
  obtain ⟨rob, -, rfl⟩ := Machine.initial_eq h
  rw [(Machine.sameCore_settle _).registers, Machine.count_initialRegisters, Config.archCount]
  exact Nat.lt_succ_of_le (Instruction.registers_le_of_misfit hmisfit hr)

theorem Machine.Confined.initial (hfit : Session.misfits config code = [])
    (h : Machine.initial config code = .ok m) : m.Confined code := by
  have hprovided := Provided.initial hfit h
  obtain ⟨rob, hr, rfl⟩ := Machine.initial_eq h
  have hslots : ∀ (i : Nat) (s : Slot), rob.slots[i]? = some s → s.busy ≠ true := by
    intro i s hi
    rw [(ReorderBuffer.eq_of_ofCapacity hr).1] at hi
    simp [(Array.mem_replicate.1 (Array.mem_of_getElem? hi)).2, Slot.empty]
  have hstations : ∀ (i : Nat) (st : Station),
      (StationTable.ofCounts config.stations).stations[i]? = some st → st.busy ≠ true := fun i st hi =>
    StationTable.busy_ofCounts (Array.mem_of_getElem? hi)
  refine Confined.settle {
    provided := fun i hi r hr => (Machine.sameCore_settle _).registers ▸ hprovided i hi r hr
    instrs := fun p instr hp => ?_
    tags := fun i s tag hi hb => absurd hb (hslots i s hi)
    archs := fun i s r hi hb => absurd hb (hslots i s hi)
    holders := fun i st tag hi hb => absurd hb (hstations i st hi)
    free := fun tag ht => ?_ }
  · obtain ⟨v, hv, rfl⟩ := Option.map_eq_some_iff.1 hp
    exact List.mem_of_getElem? ((Fetch.orderly_ofCode code).instr_current hv)
  · obtain ⟨i, hi, rfl⟩ := List.mem_map.1 ht
    rw [PhysicalFile.count, PhysicalFile.ofCount, Array.size_replicate, UInt16.toNat_ofNat']
    exact Nat.lt_of_le_of_lt (Nat.mod_le _ _) (List.mem_range.1 hi)

/-- Every machine of an accepted program is confined, in any configuration. -/
theorem straightRun_confined (hfit : Session.misfits config code = []) {k : Nat} {events : List Event}
    (h : straightRun config code k = .ok (m, events)) : m.Confined code := by
  induction k generalizing m events with
  | zero =>
    simp only [straightRun, bind_eq_ok_iff, guarded_eq_ok_iff, pure_eq_ok_iff, Prod.mk.injEq] at h
    obtain ⟨start, hs, rfl, -⟩ := h
    exact (Machine.Confined.initial hfit hs).drained
  | succ k ih =>
    simp only [straightRun, bind_eq_ok_iff, pure_eq_ok_iff, Prod.mk.injEq] at h
    obtain ⟨⟨before, earlier⟩, hb, after, ha, rfl, -⟩ := h
    exact ((ih hb).runCycle ha).drained

end

namespace Session

variable {config : Config} {code : List Instruction} {trace : List Deed} {s : Session}

theorem Reached.accepted (h : Reached config code trace s) : misfits config code = [] := by
  induction h with
  | load hconfig hload => exact (load_eq hconfig hload).1
  | step _ _ ih => exact ih

theorem Reached.provided (hc : config.Admitted) (h : Reached config code trace s) :
    Provided code s.machine :=
  h.keeps hc (fun _ m => Provided code m) (fun _ hm => .initial h.accepted hm)
    (fun _ _ _ hs hp => hp.of_core hs) fun _ _ _ _ _ hp hm => hp.of_steady hm.steady

end Session

end OutOfOrder
