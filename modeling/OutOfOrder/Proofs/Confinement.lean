import OutOfOrder.Proofs.Steady
import OutOfOrder.Session

/-!
No contract of a component is broken, in whatever configuration. The tags, registers and instructions that a machine
deals with are among those that it was built with, so whatever it looks up is there: a cycle completes, or it ends in
an arithmetic fault.
-/

set_option autoImplicit false

namespace OutOfOrder

/-- Whatever goes wrong is not a broken contract. -/
def Sound {α : Type} (x : Except Halt α) : Prop := ∀ b, x ≠ .error (.breach b)

namespace Sound

variable {α β σ : Type}

theorem ok (a : α) : Sound (.ok a) := nofun

theorem guarded {x : Except Breach α} (h : ∃ a, x = .ok a) : Sound (Halt.guarded x) := by
  obtain ⟨a, rfl⟩ := h
  exact .ok a

theorem bind {x : Except Halt α} {f : α → Except Halt β} (hx : Sound x)
    (hf : ∀ a, x = .ok a → Sound (f a)) : Sound (x >>= f) := by
  cases x with
  | ok a => exact hf a rfl
  | error e =>
    intro b hb
    exact hx b (by simpa [Bind.bind, Except.bind] using hb)

theorem foldlM {f : σ → β → Except Halt σ} (kept : List β → σ → Prop)
    (sound : ∀ x rest s, kept (x :: rest) s → Sound (f s x))
    (round : ∀ x rest s s', kept (x :: rest) s → f s x = .ok s' → kept rest s') {xs : List β} {s : σ}
    (h : kept xs s) : Sound (xs.foldlM f s) := by
  induction xs generalizing s with
  | nil => exact .ok s
  | cons x rest ih =>
    rw [List.foldlM_cons]
    exact (sound x rest s h).bind fun s' hs' => ih (round x rest s s' h hs')

theorem exists_ok {x : Except Halt α} (h : Sound x) : (∃ a, x = .ok a) ∨ ∃ f, x = .error (.fault f) := by
  cases x with
  | ok a => exact .inl ⟨a, rfl⟩
  | error e =>
    cases e with
    | fault f => exact .inr ⟨f, rfl⟩
    | breach b => exact absurd rfl (h b)

end Sound

/-! ### What the components are asked for -/

theorem PhysicalFile.exists_set {f : PhysicalFile} {tag : Tag} (h : tag.index.toNat < f.count)
    (value : Word) : ∃ f', f.set tag value = .ok f' := by
  simp [PhysicalFile.set, writeAt_of_lt h, Except.map]

theorem PhysicalFile.free_set {f f' : PhysicalFile} {tag : Tag} {value : Word} (h : f.set tag value = .ok f') :
    f'.free = f.free := by
  rw [PhysicalFile.set, map_eq_ok_iff] at h
  obtain ⟨values, -, rfl⟩ := h
  rfl

theorem PhysicalFile.exists_release {f : PhysicalFile} {tag : Tag} (h : tag.index.toNat < f.count) :
    ∃ f', f.release tag = .ok f' := by
  simp [PhysicalFile.release, writeAt_of_lt h, Except.map]

theorem RegisterFile.exists_get {f : RegisterFile} {r : Register} (h : r.index.toNat < f.count) :
    ∃ value, f.get r = .ok value := ⟨_, readAt_of_lt h⟩

theorem RegisterFile.exists_set {f : RegisterFile} {r : Register} (h : r.index.toNat < f.count)
    (value : Word) : ∃ f', f.set r value = .ok f' := by
  simp [RegisterFile.set, writeAt_of_lt h, Except.map]

theorem ReorderBuffer.exists_slot {b : ReorderBuffer} {i : Nat} (hi : i < b.slots.size) :
    ∃ s, b.slot i = .ok s := ⟨_, readAt_of_lt hi⟩

/-- What a search finds is in flight. -/
theorem ReorderBuffer.lt_of_find {b : ReorderBuffer} {i : Nat} {p : Slot → Bool} (h : b.find p = some i) :
    i < b.slots.size := mem_inFlight_lt (List.mem_of_find?_eq_some h)

/-- After a slot is claimed and filled, every other slot is as it was. -/
theorem ReorderBuffer.of_allocate_modify {b b' : ReorderBuffer} {i j : Nat} {s : Slot}
    (ha : b.allocate = .ok (i, b')) (f : Slot → Slot) (hj : (b'.modify i f).slots[j]? = some s) :
    s = f .claimed ∨ b.slots[j]? = some s := by
  unfold allocate at ha
  split at ha
  · simp only [Except.ok.injEq, Prod.mk.injEq] at ha
    obtain ⟨rfl, rfl⟩ := ha
    rw [getElem?_slots_modify] at hj
    split at hj
    · next he =>
      subst he
      rw [Array.getElem?_set_self] at hj
      exact .inl (Option.some.inj hj).symm
    · next hne =>
      rw [Array.getElem?_set_ne _ hne] at hj
      exact .inr hj
  · simp at ha

/-- Every register that the program names exists. -/
def Provided (code : List Instruction) (m : Machine) : Prop :=
  ∀ i ∈ code, ∀ r ∈ i.registers, r.index.toNat < m.registers.count

theorem Provided.of_steady {code : List Instruction} {m m' : Machine} (h : Provided code m)
    (hs : Steady m m') : Provided code m' := by
  intro i hi r hr
  rw [hs.registers]
  exact h i hi r hr

theorem Instruction.mem_registers_of_source {i : Instruction} {r : Register}
    (h : r = i.sources.1 ∨ i.sources.2 = some r) : r ∈ i.registers := by
  unfold Instruction.sources at h
  unfold Instruction.registers
  split at h
  · cases hrt : i.rt <;> simp_all [eq_comm, or_comm]
  · split at h <;> simp_all [or_comm]

theorem Instruction.mem_registers_of_dest {i : Instruction} {r : Register} (h : i.dest = some r) :
    r ∈ i.registers := by
  unfold Instruction.dest at h
  split at h
  · simp [Instruction.registers, h]
  · simp at h

/-! ### What a machine deals with -/

namespace Fetch

/-- The instruction at a position, as its current version has it. -/
def instrAt (f : Fetch) (p : Nat) : Option Instruction := (f.current? p).map Instance.instr

theorem instrAt_modify (f : Fetch) (id : InstanceId) {g : Instance → Instance}
    (hg : ∀ v, (g v).instr = v.instr) (p : Nat) : (f.modify id g).instrAt p = f.instrAt p := by
  have hkept : ∀ h : History, (h.modify id.version g).current.instr = h.current.instr := by
    intro h
    unfold History.modify
    split
    · exact hg _
    · rfl
  simp only [instrAt, current?, modify, Array.getElem?_modify, Option.map_map]
  split
  · cases f.histories[p]? with
    | none => rfl
    | some h => exact congrArg some (hkept h)
  · rfl

theorem instrAt_renewAfter (f : Fetch) (b p : Nat) : (f.renewAfter b).instrAt p = f.instrAt p := by
  simp only [instrAt, current?, renewAfter, Array.getElem?_mapIdx, Option.map_map]
  congr 1
  funext h
  show (if _ then h.renew else h).current.instr = h.current.instr
  split <;> rfl

end Fetch

/-- Nothing new is in flight: what is left has the tags and the registers that it had, and so has the program. -/
structure Sheds (m m' : Machine) : Prop extends Steady m m' where
  instrs : ∀ p, m'.fetch.instrAt p = m.fetch.instrAt p
  slots : ∀ (i : Nat) (s' : Slot), m'.rob.slots[i]? = some s' → s'.busy = true →
    ∃ s, m.rob.slots[i]? = some s ∧ s.busy = true ∧ s'.tag = s.tag ∧ s'.arch = s.arch
  holders : ∀ (i : Nat) (st' : Station), m'.stations.stations[i]? = some st' → st'.busy = true →
    ∃ st, m.stations.stations[i]? = some st ∧ st.busy = true ∧ st'.dest = st.dest
  free : m'.physical.free = m.physical.free

namespace Sheds

theorem of_eq {m m' : Machine} (hs : Steady m m') (fetch : m'.fetch = m.fetch) (rob : m'.rob = m.rob)
    (stations : m'.stations = m.stations) (free : m'.physical.free = m.physical.free) : Sheds m m' where
  toSteady := hs
  instrs p := by rw [fetch]
  slots i s hi hb := ⟨s, rob ▸ hi, hb, rfl, rfl⟩
  holders i st hi hb := ⟨st, stations ▸ hi, hb, rfl⟩
  free := free

theorem refl (m : Machine) : Sheds m m := of_eq (.refl m) rfl rfl rfl rfl

theorem trans {a b c : Machine} (h : Sheds a b) (h' : Sheds b c) : Sheds a c where
  toSteady := h.toSteady.trans h'.toSteady
  instrs p := (h'.instrs p).trans (h.instrs p)
  slots i s'' hi hb := by
    obtain ⟨s', hi, hb, ht', ha'⟩ := h'.slots i s'' hi hb
    obtain ⟨s, hi, hb, ht, ha⟩ := h.slots i s' hi hb
    exact ⟨s, hi, hb, ht'.trans ht, ha'.trans ha⟩
  holders i st'' hi hb := by
    obtain ⟨st', hi, hb, hd'⟩ := h'.holders i st'' hi hb
    obtain ⟨st, hi, hb, hd⟩ := h.holders i st' hi hb
    exact ⟨st, hi, hb, hd'.trans hd⟩
  free := h'.free.trans h.free

theorem foldl {β : Type} {f : Machine → β → Machine} (round : ∀ m x, Sheds m (f m x)) (xs : List β)
    (m : Machine) : Sheds m (xs.foldl f m) := by
  induction xs generalizing m with
  | nil => exact refl m
  | cons x rest ih => exact (round m x).trans (ih _)

end Sheds

namespace Machine

variable {m m' : Machine}

theorem record_sheds (m : Machine) (what : Happening) : Sheds m (m.record what) :=
  .of_eq (record_steady m what) rfl rfl rfl rfl

theorem modifySlot_sheds (m : Machine) (i : Nat) {f : Slot → Slot}
    (hf : ∀ s, (f s).busy = s.busy ∧ (f s).tag = s.tag ∧ (f s).arch = s.arch) : Sheds m (m.modifySlot i f) where
  toSteady := modifySlot_steady m i f
  instrs _ := rfl
  slots j s' hj hb := by
    rw [modifySlot, ReorderBuffer.getElem?_slots_modify] at hj
    split at hj
    · obtain ⟨s, hs, rfl⟩ := Option.map_eq_some_iff.1 hj
      exact ⟨s, hs, (hf s).1 ▸ hb, (hf s).2⟩
    · exact ⟨s', hj, hb, rfl, rfl⟩
  holders _ st hj hb := ⟨st, hj, hb, rfl⟩
  free := rfl

theorem promote_sheds (m : Machine) (i : Nat) (stage : Stage) : Sheds m (m.promote i stage) := by
  refine ⟨promote_steady m i stage, fun p => ?_, fun j s hj hb => ⟨s, by simpa using hj, hb, rfl, rfl⟩,
    fun j st hj hb => ⟨st, by simpa using hj, hb, rfl⟩, by simp⟩
  unfold promote
  split
  · rfl
  · split
    · rfl
    · next slot _ _ id _ =>
      exact m.fetch.instrAt_modify id (g := fun v => { v with stage, times := slot.times }) (fun _ => rfl) p

/-- The stations change in their own way, and no station becomes busy or gets another tag. -/
theorem stations_sheds (m : Machine) (t : StationTable) (hsize : t.size = m.stations.size)
    (ht : ∀ (i : Nat) (st' : Station), t.stations[i]? = some st' → st'.busy = true →
      ∃ st, m.stations.stations[i]? = some st ∧ st.busy = true ∧ st'.dest = st.dest) :
    Sheds m { m with stations := t } :=
  ⟨⟨rfl, rfl, rfl, hsize, rfl, rfl, rfl⟩, fun _ => rfl, fun _ s hi hb => ⟨s, hi, hb, rfl, rfl⟩, ht, rfl⟩

theorem release_sheds (m : Machine) (i : Nat) : Sheds m { m with stations := m.stations.release i } := by
  refine m.stations_sheds _ (StationTable.size_modify ..) fun j st' hj hb => ?_
  rw [StationTable.release, StationTable.getElem?_stations_modify] at hj
  split at hj
  · obtain ⟨st, -, rfl⟩ := Option.map_eq_some_iff.1 hj
    simp [Station.release, Station.idle] at hb
  · exact ⟨st', hj, hb, rfl⟩

/-! ### Write result -/

theorem cancel_sheds (m : Machine) (id : InstanceId) : Sheds m (m.cancel id) := by
  unfold cancel
  let counted : Machine := { m with counters := { m.counters with squashed := m.counters.squashed + 1 } }
  have hc : Sheds m counted := .of_eq ⟨rfl, rfl, rfl, rfl, rfl, rfl, rfl⟩ rfl rfl rfl rfl
  refine .trans ?_ (record_sheds _ _)
  cases m.rob.slotOf id with
  | none => exact hc
  | some i =>
    have hs := hc.trans (counted.modifySlot_sheds i (f := fun s => { s with state := .cancelled, ready := false })
      fun _ => ⟨rfl, rfl, rfl⟩)
    dsimp only
    split
    · refine hs.trans ?_
      unfold releaseTag
      split
      · exact release_sheds _ _
      · exact .refl _
    · exact hs

theorem realias_sheds (m : Machine) (r : Register) : Sheds m (m.realias r) := by
  refine .of_eq (realias_steady m r) ?_ ?_ ?_ ?_ <;>
    (unfold realias; split <;> rfl)

theorem squashYounger_sheds (m : Machine) (position : Nat) : Sheds m (m.squashYounger position) := by
  have hr : Sheds m { m with fetch := m.fetch.renewAfter position } :=
    ⟨⟨rfl, rfl, rfl, rfl, rfl, rfl, by simp [Fetch.renewAfter]⟩, m.fetch.instrAt_renewAfter position,
      fun _ s hi hb => ⟨s, hi, hb, rfl, rfl⟩, fun _ st hi hb => ⟨st, hi, hb, rfl⟩, rfl⟩
  exact (hr.trans (.foldl cancel_sheds _ _)).trans (.foldl realias_sheds _ _)

theorem deliver_sheds {station : Nat} {name : String} {slot : Nat} {tag : Tag} {result : Word}
    {instr : Option Instruction} (h : m.deliver station name slot tag result instr = .ok m') : Sheds m m' := by
  simp only [deliver, bind_eq_ok_iff, guarded_eq_ok_iff, pure_eq_ok_iff] at h
  obtain ⟨physical, hp, rfl⟩ := h
  have hcount := PhysicalFile.count_set hp
  have hfree := PhysicalFile.free_set hp
  let held := m.modifySlot slot fun s => { s with
    result := some result, ready := true, state := .written, times := { s.times with write := some m.cycle } }
  have hheld : Sheds m held := m.modifySlot_sheds slot fun _ => ⟨rfl, rfl, rfl⟩
  have hset : Sheds held { held with physical } :=
    .of_eq ⟨rfl, rfl, rfl, rfl, rfl, hcount, rfl⟩ rfl rfl rfl hfree
  let promoted := { held with physical }.promote slot .written
  have hpromoted : Sheds m promoted := (hheld.trans hset).trans (promote_sheds _ _ _)
  let heard : Machine := { promoted with stations := promoted.stations.broadcast tag result }
  have hheard : Sheds promoted heard := by
    refine promoted.stations_sheds _ (StationTable.size_broadcast ..) fun i st' hi hb => ?_
    simp only [StationTable.broadcast, Array.getElem?_map, Option.map_eq_some_iff] at hi
    obtain ⟨st, hst, rfl⟩ := hi
    refine ⟨st, hst, ?_, ?_⟩
    · split at hb
      · assumption
      · exact hb
    · split <;> rfl
  have hreleased := (hpromoted.trans hheard).trans (heard.release_sheds station)
  refine .trans (hreleased.trans ?_) (record_sheds _ _)
  exact .of_eq ⟨rfl, rfl, rfl, rfl, rfl, rfl, rfl⟩ rfl rfl rfl rfl

theorem writeResult_sheds {i : Nat} (h : m.writeResult i = .ok m') : Sheds m m' := by
  simp only [writeResult, bind_eq_ok_iff, guarded_eq_ok_iff] at h
  obtain ⟨station, -, h⟩ := h
  split at h
  case h_2 => exact pure_eq_ok_iff.1 h ▸ .refl m
  case h_1 op tag _ _ _ =>
    split at h
    case h_1 => exact pure_eq_ok_iff.1 h ▸ .refl m
    case h_2 k _ =>
      simp only [bind_eq_ok_iff, guarded_eq_ok_iff] at h
      obtain ⟨slot, -, h⟩ := h
      split at h
      case h_1 => simp [throw, throwThe, MonadExceptOf.throw] at h
      case h_2 computed _ =>
        simp only [bind_eq_ok_iff] at h
        obtain ⟨delivered, hd, h⟩ := h
        let accessed := (m.memory.access op computed (Station.operandValue station.right)).2
        have ha : Sheds m { m with memory := accessed } :=
          .of_eq ⟨rfl, rfl, rfl, rfl, rfl, rfl, rfl⟩ rfl rfl rfl rfl
        have hs : Sheds m delivered := ha.trans (deliver_sheds hd)
        split at h
        · exact pure_eq_ok_iff.1 h ▸ hs.trans (squashYounger_sheds _ _)
        · exact pure_eq_ok_iff.1 h ▸ hs

/-! ### Execute -/

theorem startExecution_sheds (m : Machine) (name : String) (i : Nat) (slot : Slot) :
    Sheds m (m.startExecution name i slot) := by
  unfold startExecution
  split
  · refine .trans ?_ (record_sheds _ _)
    exact m.modifySlot_sheds i fun _ => ⟨rfl, rfl, rfl⟩
  · exact .refl m

theorem completeExecution_sheds (m : Machine) (name : String) (i : Nat) (slot : Slot) :
    Sheds m (m.completeExecution name i slot) := by
  have hs := (m.modifySlot_sheds i (f := fun s => { s with times := { s.times with executeDone := some m.cycle } })
    fun _ => ⟨rfl, rfl, rfl⟩).trans (promote_sheds _ i .executed)
  refine .trans (hs.trans ?_) (record_sheds _ _)
  exact .of_eq ⟨rfl, rfl, rfl, rfl, rfl, rfl, rfl⟩ rfl rfl rfl rfl

theorem executeStation_sheds {i : Nat} (h : m.executeStation i = .ok m') : Sheds m m' := by
  simp only [executeStation, bind_eq_ok_iff, guarded_eq_ok_iff] at h
  obtain ⟨station, -, h⟩ := h
  split at h
  case isTrue => exact pure_eq_ok_iff.1 h ▸ .refl m
  case isFalse =>
    split at h
    case isTrue =>
      obtain rfl := pure_eq_ok_iff.1 h
      exact .of_eq ⟨rfl, rfl, rfl, rfl, rfl, rfl, rfl⟩ rfl rfl rfl rfl
    case isFalse =>
      split at h
      case h_1 => exact pure_eq_ok_iff.1 h ▸ .refl m
      case h_2 k _ =>
        simp only [bind_eq_ok_iff, guarded_eq_ok_iff] at h
        obtain ⟨slot, -, h⟩ := h
        let started := m.startExecution station.name k slot
        have hs : Sheds m started := startExecution_sheds m station.name k slot
        have ht : Sheds m { started with
            stations := started.stations.modify i fun s => { s with remaining := s.remaining - 1 } } := by
          refine hs.trans (started.stations_sheds _ (StationTable.size_modify ..) fun j st' hj hb => ?_)
          rw [StationTable.getElem?_stations_modify] at hj
          split at hj
          · obtain ⟨st, hst, rfl⟩ := Option.map_eq_some_iff.1 hj
            exact ⟨st, hst, hb, rfl⟩
          · exact ⟨st', hj, hb, rfl⟩
        split at h
        · exact pure_eq_ok_iff.1 h ▸ ht.trans (completeExecution_sheds _ _ _ _)
        · exact pure_eq_ok_iff.1 h ▸ ht

/-! ### Issue and commit -/

theorem stall_sheds (m : Machine) (shortage : Shortage) : Sheds m (m.stall shortage) :=
  .of_eq (stall_steady m shortage) rfl rfl rfl rfl

theorem rename_sheds {dest : Option Register} {tag : Tag} (h : m.rename dest tag = .ok m') : Sheds m m' := by
  have hs := rename_steady h
  unfold rename at h
  split at h
  · exact Except.ok.inj h ▸ .refl m
  · simp only [bind_eq_ok_iff, pure_eq_ok_iff] at h
    obtain ⟨value, -, physical, hp, rfl⟩ := h
    exact .of_eq hs rfl rfl rfl (PhysicalFile.free_set hp)

/-- What a commit publishes changes neither slots nor tags. -/
theorem publish_frame {s : Slot} (h : m.publish s = .ok m') : m'.fetch = m.fetch ∧ m'.rob = m.rob ∧
    m'.stations = m.stations ∧ m'.physical = m.physical := by
  unfold publish at h
  split at h
  · simp only [bind_eq_ok_iff, pure_eq_ok_iff] at h
    obtain ⟨registers, -, rfl⟩ := h
    exact ⟨rfl, rfl, rfl, rfl⟩
  · exact Except.ok.inj h ▸ ⟨rfl, rfl, rfl, rfl⟩

theorem publish_sheds {s : Slot} (h : m.publish s = .ok m') : Sheds m m' := by
  obtain ⟨fetch, rob, stations, physical⟩ := publish_frame h
  exact .of_eq (publish_steady h) fetch rob stations (by rw [physical])

end Machine

/-! ### Confinement -/

namespace Machine

/-- All that is named by what is in flight exists, and what is left to be issued is of the program. -/
structure Confined (code : List Instruction) (m : Machine) : Prop where
  provided : Provided code m
  instrs : ∀ p, ∀ instr ∈ m.fetch.instrAt p, instr ∈ code
  tags : ∀ (i : Nat) (s : Slot) (tag : Tag), m.rob.slots[i]? = some s → s.busy = true → s.tag = some tag →
    tag.index.toNat < m.physical.count
  archs : ∀ (i : Nat) (s : Slot) (r : Register), m.rob.slots[i]? = some s → s.busy = true → s.arch = some r →
    r.index.toNat < m.registers.count
  holders : ∀ (i : Nat) (st : Station) (tag : Tag), m.stations.stations[i]? = some st → st.busy = true →
    st.dest = some tag → tag.index.toNat < m.physical.count
  free : ∀ tag ∈ m.physical.free, tag.index.toNat < m.physical.count

namespace Confined

variable {code : List Instruction} {m m' : Machine} {i : Nat}

theorem sheds (h : m.Confined code) (hs : Sheds m m') : m'.Confined code where
  provided := h.provided.of_steady hs.toSteady
  instrs p instr hp := h.instrs p instr (hs.instrs p ▸ hp)
  tags i s' tag hi hb ht := by
    obtain ⟨s, hi, hb, htag, -⟩ := hs.slots i s' hi hb
    rw [hs.physical]
    exact h.tags i s tag hi hb (htag ▸ ht)
  archs i s' r hi hb hr := by
    obtain ⟨s, hi, hb, -, harch⟩ := hs.slots i s' hi hb
    rw [hs.registers]
    exact h.archs i s r hi hb (harch ▸ hr)
  holders i st' tag hi hb hd := by
    obtain ⟨st, hi, hb, hdest⟩ := hs.holders i st' hi hb
    rw [hs.physical]
    exact h.holders i st tag hi hb (hdest ▸ hd)
  free tag ht := by
    rw [hs.free] at ht
    rw [hs.physical]
    exact h.free tag ht

theorem instr_mem (h : m.Confined code) {v : Instance} (hv : m.fetch.next? = some v) : v.instr ∈ code :=
  h.instrs m.fetch.pc v.instr (Option.map_eq_some_iff.2 ⟨v, hv, rfl⟩)

/-! ### Write result and execute -/

theorem writeResult_sound (h : m.Confined code) (hi : i < m.stations.size) : Sound (m.writeResult i) := by
  unfold writeResult
  refine (Sound.guarded ⟨_, readAt_of_lt hi⟩).bind fun st hst => ?_
  have hst : m.stations.stations[i]? = some st := readAt_eq_ok_iff.1 (guarded_eq_ok_iff.1 hst)
  split
  · next op tag busy _ dest =>
    split
    · exact .ok m
    · next k found =>
      refine (Sound.guarded (ReorderBuffer.exists_slot (ReorderBuffer.lt_of_find found))).bind fun slot _ => ?_
      split
      · exact fun b hb => by simp [throw, throwThe, MonadExceptOf.throw] at hb
      · next computed _ =>
        have hset := PhysicalFile.exists_set (h.holders i st tag hst busy dest)
          (m.memory.access op computed (Station.operandValue st.right)).1
        refine Sound.bind ((Sound.guarded hset).bind fun _ _ => .ok _) fun n _ => ?_
        split <;> exact .ok _
  · exact .ok m

theorem writeResults_sound (h : m.Confined code) : Sound m.writeResults := by
  refine Sound.foldlM (fun rest n => n.Confined code ∧ ∀ i ∈ rest, i < n.stations.size) ?_ ?_
    ⟨h, fun i hi => List.mem_range.1 (List.mem_filter.1 hi).1⟩
  · exact fun i rest n ⟨hn, hlt⟩ => hn.writeResult_sound (hlt i (List.mem_cons_self ..))
  · intro i rest n n' ⟨hn, hlt⟩ hw
    have hs := writeResult_sheds hw
    refine ⟨hn.sheds hs, fun j hj => ?_⟩
    rw [hs.stations]
    exact hlt j (List.mem_cons_of_mem i hj)

theorem writeResults (h : m.Confined code) (hm : m.writeResults = .ok m') : m'.Confined code :=
  foldlM_keeps (fun _ n => n.Confined code) (fun _ _ _ _ hn hw => hn.sheds (writeResult_sheds hw)) h hm

theorem executeStation_sound (m : Machine) (hi : i < m.stations.size) : Sound (m.executeStation i) := by
  unfold executeStation
  refine (Sound.guarded ⟨_, readAt_of_lt hi⟩).bind fun st _ => ?_
  split
  · exact .ok m
  · split
    · exact .ok _
    · split
      · exact .ok m
      · next k found =>
        obtain ⟨tag, -, found⟩ := Option.bind_eq_some_iff.1 found
        refine (Sound.guarded (ReorderBuffer.exists_slot (ReorderBuffer.lt_of_find found))).bind fun slot _ => ?_
        split <;> exact .ok _

theorem execute_sound (m : Machine) : Sound m.execute := by
  refine Sound.foldlM (fun rest n => ∀ i ∈ rest, i < n.stations.size) ?_ ?_ fun i hi => List.mem_range.1 hi
  · exact fun i rest n hlt => executeStation_sound n (hlt i (List.mem_cons_self ..))
  · intro i rest n n' hlt he j hj
    rw [(executeStation_steady he).stations]
    exact hlt j (List.mem_cons_of_mem i hj)

theorem execute (h : m.Confined code) (hm : m.execute = .ok m') : m'.Confined code :=
  foldlM_keeps (fun _ n => n.Confined code) (fun _ _ _ _ hn he => hn.sheds (executeStation_sheds he)) h hm

/-! ### Issue -/

theorem exists_operandFor (h : m.Confined code) {instr : Instruction} (hinstr : instr ∈ code) {r : Register}
    (hr : r = instr.sources.1 ∨ instr.sources.2 = some r) : ∃ o, m.operandFor r = .ok o := by
  obtain ⟨value, hget⟩ :=
    RegisterFile.exists_get (h.provided instr hinstr r (Instruction.mem_registers_of_source hr))
  unfold operandFor
  rw [hget]
  split
  · exact ⟨_, rfl⟩
  · split <;> exact ⟨_, rfl⟩

theorem exists_operands (h : m.Confined code) {instr : Instruction} (hinstr : instr ∈ code) :
    ∃ o, m.operands instr = .ok o := by
  obtain ⟨left, hleft⟩ := h.exists_operandFor hinstr (.inl rfl)
  unfold operands
  cases hright : instr.sources.2 with
  | none => exact ⟨(left, none), by simp [hleft, hright, operandFor?, bind, Except.bind, pure, Except.pure]⟩
  | some q =>
    obtain ⟨right, hq⟩ := h.exists_operandFor hinstr (.inr hright)
    exact ⟨(left, some right), by
      simp [hleft, hright, hq, operandFor?, bind, Except.bind, pure, Except.pure, Except.map]⟩

theorem exists_rename {dest : Option Register} (hdest : ∀ r, dest = some r → r.index.toNat < m.registers.count)
    {tag : Tag} (htag : tag.index.toNat < m.physical.count) : ∃ m', m.rename dest tag = .ok m' := by
  cases dest with
  | none => exact ⟨m, rfl⟩
  | some r =>
    obtain ⟨value, hget⟩ := RegisterFile.exists_get (hdest r rfl)
    obtain ⟨physical, hset⟩ := PhysicalFile.exists_set htag value
    simp [rename, hget, hset, bind, Except.bind, pure, Except.pure]

theorem dispatch_sound (h : m.Confined code) {v : Instance} (hinstr : v.instr ∈ code)
    (hroom : m.rob.hasRoom = true) (hi : i < m.stations.size) {tag : Tag}
    (htag : tag.index.toNat < m.physical.count) (left : Operand) (right : Option Operand) :
    Sound (m.dispatch v i left right tag) := by
  unfold dispatch
  refine (Sound.guarded ?_).bind fun claimed _ => (Sound.guarded ?_).bind fun renamed hr => ?_
  · simp [ReorderBuffer.allocate, hroom]
  · refine exists_rename ?_ ?_
    · exact fun r hr => h.provided v.instr hinstr r (Instruction.mem_registers_of_dest hr)
    · exact htag
  · have hstations : renamed.stations.size = m.stations.size :=
      (rename_steady (guarded_eq_ok_iff.1 hr)).stations
    have hlt : i < renamed.stations.stations.size := by
      rw [← hstations] at hi
      exact hi
    exact (Sound.guarded ⟨_, readAt_of_lt hlt⟩).bind fun _ _ => .ok _

theorem allocate (h : m.Confined code) {tag : Tag} {physical : PhysicalFile}
    (register : m.physical.allocate = some (tag, physical)) :
    Confined code { m with physical } ∧ tag.index.toNat < physical.count := by
  unfold PhysicalFile.allocate at register
  split at register
  · simp at register
  · next hf =>
    simp only [Option.some.injEq, Prod.mk.injEq] at register
    obtain ⟨rfl, rfl⟩ := register
    refine ⟨⟨h.provided, h.instrs, h.tags, h.archs, h.holders, fun t ht => h.free t ?_⟩, h.free _ ?_⟩ <;>
      rw [hf]
    · exact List.mem_cons_of_mem _ ht
    · exact List.mem_cons_self ..

theorem issue_sound (h : m.Confined code) : Sound m.issue := by
  unfold issue
  split
  · exact .ok m
  · next v next =>
    have hinstr := h.instr_mem next
    split
    · exact .ok _
    · next hroom =>
      split
      · exact .ok _
      · next i hidle =>
        obtain ⟨hlt, -, -⟩ := Array.findIdx?_eq_some_iff_getElem.1 hidle
        refine (Sound.guarded (h.exists_operands hinstr)).bind fun (left, right) _ => ?_
        dsimp only
        split
        · exact .ok _
        · next tag physical register =>
          obtain ⟨hm, htag⟩ := h.allocate register
          exact hm.dispatch_sound hinstr (by simpa using hroom) hlt htag _ _

theorem dispatch (h : m.Confined code) {v : Instance} (hinstr : v.instr ∈ code) {tag : Tag}
    (htag : tag.index.toNat < m.physical.count) {left : Operand} {right : Option Operand}
    (hm : m.dispatch v i left right tag = .ok m') : m'.Confined code := by
  simp only [Machine.dispatch, bind_eq_ok_iff, guarded_eq_ok_iff, pure_eq_ok_iff] at hm
  obtain ⟨⟨slot, rob⟩, ha, renamed, hr, station, -, rfl⟩ := hm
  let fill : Slot → Slot := fun entry => { entry with
    instr := some v.instr, occupant := some v.id, state := .processing, arch := v.instr.dest, tag := some tag
    times := { entry.times with issue := some m.cycle } }
  let claimed : Machine := { m with rob }.modifySlot slot fill
  have hslots : ∀ (j : Nat) (s : Slot), claimed.rob.slots[j]? = some s →
      s = fill .claimed ∨ m.rob.slots[j]? = some s := fun j s => ReorderBuffer.of_allocate_modify ha fill
  have hclaimed : claimed.Confined code := {
    provided := h.provided
    instrs := h.instrs
    holders := h.holders
    free := h.free
    tags := fun j s t hj hb ht => by
      rcases hslots j s hj with rfl | hj
      · obtain rfl := Option.some.inj ht
        exact htag
      · exact h.tags j s t hj hb ht
    archs := fun j s r hj hb hr => by
      rcases hslots j s hj with rfl | hj
      · exact h.provided v.instr hinstr r (Instruction.mem_registers_of_dest hr)
      · exact h.archs j s r hj hb hr }
  have hsheds := rename_sheds hr
  have hrenamed := hclaimed.sheds hsheds
  let occupied : Machine := { renamed with stations := renamed.stations.modify i fun entry => { entry with
    busy := true, opcode := some v.instr.opcode, left := some left, right, imm := v.instr.imm, dest := some tag
    remaining := v.instr.opcode.latency } }
  have hoccupied : occupied.Confined code := {
    provided := hrenamed.provided
    instrs := hrenamed.instrs
    tags := hrenamed.tags
    archs := hrenamed.archs
    free := hrenamed.free
    holders := fun j st t hj hb hd => by
      rw [StationTable.getElem?_stations_modify] at hj
      split at hj
      · obtain ⟨st, -, rfl⟩ := Option.map_eq_some_iff.1 hj
        obtain rfl := Option.some.inj hd
        rw [show occupied.physical.count = m.physical.count from hsheds.physical]
        exact htag
      · exact hrenamed.holders j st t hj hb hd }
  have hpromoted := hoccupied.sheds (promote_sheds _ slot .issued)
  refine Confined.sheds ?_ (record_sheds _ _)
  exact ⟨hpromoted.provided, hpromoted.instrs, hpromoted.tags, hpromoted.archs, hpromoted.holders, hpromoted.free⟩

theorem issue (h : m.Confined code) (hm : m.issue = .ok m') : m'.Confined code := by
  unfold Machine.issue at hm
  split at hm
  case h_1 => exact pure_eq_ok_iff.1 hm ▸ h
  case h_2 v next =>
    split at hm
    case isTrue => exact pure_eq_ok_iff.1 hm ▸ h.sheds (stall_sheds m _)
    case isFalse =>
      split at hm
      case h_1 => exact pure_eq_ok_iff.1 hm ▸ h.sheds (stall_sheds m _)
      case h_2 k _ =>
        simp only [bind_eq_ok_iff, guarded_eq_ok_iff] at hm
        obtain ⟨⟨left, right⟩, -, hm⟩ := hm
        split at hm
        case h_1 => exact pure_eq_ok_iff.1 hm ▸ h.sheds (stall_sheds m _)
        case h_2 tag physical register =>
          obtain ⟨hallocated, htag⟩ := h.allocate register
          exact hallocated.dispatch (h.instr_mem next) htag hm

/-! ### Commit -/

theorem exists_retire (hb : m.rob.isBusy m.rob.head = true) (tag : Option Tag)
    (htag : ∀ t, tag = some t → t.index.toNat < m.physical.count) : ∃ m', m.retire tag = .ok m' := by
  cases tag with
  | none => simp [retire, ReorderBuffer.retire, hb, bind, Except.bind, pure, Except.pure]
  | some t =>
    obtain ⟨physical, hrelease⟩ := PhysicalFile.exists_release (htag t rfl)
    simp [retire, ReorderBuffer.retire, hb, hrelease, bind, Except.bind, pure, Except.pure]

theorem exists_publish {s : Slot} (harch : ∀ r, s.arch = some r → r.index.toNat < m.registers.count) :
    ∃ m', m.publish s = .ok m' := by
  unfold publish
  split
  · next r tag ha _ =>
    obtain ⟨registers, hset⟩ := RegisterFile.exists_set (harch r ha) (s.result.getD 0.0)
    simp [hset, bind, Except.bind, pure, Except.pure]
  · exact ⟨m, rfl⟩

theorem exists_commitHead (h : m.Confined code) {s : Slot} (hs : m.rob.slots[m.rob.head]? = some s)
    (hb : s.busy = true) : ∃ m', m.commitHead s = .ok m' := by
  unfold commitHead
  let n : Machine := (m.modifySlot m.rob.head fun s =>
    { s with state := .completed, times := { s.times with commit := some m.cycle } }).promote
      m.rob.head .committed
  have hrob : n.rob = m.rob.modify m.rob.head fun s =>
      { s with state := .completed, times := { s.times with commit := some m.cycle } } :=
    promote_rob _ _ _
  have hregisters : n.registers = m.registers := promote_registers _ _ _
  have hphysical : n.physical = m.physical := promote_physical _ _ _
  obtain ⟨p, hpublish⟩ := exists_publish (m := n) (s := s) fun r hr => by
    rw [hregisters]
    exact h.archs _ s r hs hb hr
  obtain ⟨-, hrobp, -, hphysicalp⟩ := publish_frame hpublish
  have hbusy : p.rob.isBusy p.rob.head = true := by
    rw [hrobp, hrob, ReorderBuffer.isBusy, show (m.rob.modify _ _).head = m.rob.head from rfl,
      ReorderBuffer.getElem?_slots_modify, if_pos rfl, hs]
    exact hb
  obtain ⟨q, hretire⟩ := exists_retire hbusy s.tag fun t ht => by
    rw [hphysicalp, hphysical]
    exact h.tags _ s t hs hb ht
  exact ⟨_, bind_eq_ok_iff.2 ⟨p, hpublish, bind_eq_ok_iff.2 ⟨q, hretire, rfl⟩⟩⟩

theorem commit_sound (h : m.Confined code) : Sound m.commit := by
  refine Sound.guarded ?_
  obtain ⟨s, hs⟩ : ∃ s, m.rob.slots[m.rob.head]? = some s := ⟨_, Array.getElem?_eq_getElem m.rob.head_lt⟩
  have hread : m.rob.slot m.rob.head = .ok s := readAt_eq_ok_iff.2 hs
  simp only [hread, bind, Except.bind]
  by_cases hb : s.busy = true
  case neg => simp [hb, pure, Except.pure]
  case pos =>
    have hbusy : m.rob.isBusy m.rob.head = true := by simp [ReorderBuffer.isBusy, hs, hb]
    obtain ⟨retired, hretire⟩ := exists_retire hbusy s.tag fun t ht => h.tags _ s t hs hb ht
    obtain ⟨committed, hcommit⟩ := h.exists_commitHead hs hb
    cases s.isLive <;> cases m.mayCommit s <;> simp [hb, hretire, hcommit, pure, Except.pure]

/-- The slot that is freed is not in flight any more, and its tag is one that exists. -/
theorem retire (h : m.Confined code) {tag : Option Tag}
    (htag : ∀ t, tag = some t → t.index.toNat < m.physical.count) (hm : m.retire tag = .ok m') :
    m'.Confined code := by
  simp only [Machine.retire, bind_eq_ok_iff] at hm
  obtain ⟨⟨i, rob⟩, hr, hm⟩ := hm
  have hslots : ∀ (j : Nat) (s : Slot), rob.slots[j]? = some s → s.busy = true → m.rob.slots[j]? = some s := by
    unfold ReorderBuffer.retire at hr
    split at hr
    · simp only [Except.ok.injEq, Prod.mk.injEq] at hr
      obtain ⟨-, rfl⟩ := hr
      intro j s hj hb
      rw [Array.getElem?_modify] at hj
      split at hj
      · obtain ⟨t, -, rfl⟩ := Option.map_eq_some_iff.1 hj
        simp [Slot.released] at hb
      · exact hj
    · simp at hr
  have hrob : Confined code { m with rob } := {
    provided := h.provided
    instrs := h.instrs
    tags := fun j s t hj hb => h.tags j s t (hslots j s hj hb) hb
    archs := fun j s r hj hb => h.archs j s r (hslots j s hj hb) hb
    holders := h.holders
    free := h.free }
  split at hm
  · exact pure_eq_ok_iff.1 hm ▸ hrob
  · next t =>
    simp only [bind_eq_ok_iff, pure_eq_ok_iff] at hm
    obtain ⟨physical, hp, rfl⟩ := hm
    have hcount := PhysicalFile.count_release hp
    rw [PhysicalFile.release, map_eq_ok_iff] at hp
    obtain ⟨values, -, rfl⟩ := hp
    refine ⟨hrob.provided, hrob.instrs, fun j s u hj hb hu => ?_, hrob.archs, fun j st u hj hb hu => ?_,
      fun u hu => ?_⟩ <;> rw [hcount]
    · exact hrob.tags j s u hj hb hu
    · exact hrob.holders j st u hj hb hu
    · rcases List.mem_append.1 hu with hu | hu
      · exact h.free u hu
      · rw [List.mem_singleton.1 hu]
        exact htag t rfl

theorem commit (h : m.Confined code) (hm : m.commit = .ok m') : m'.Confined code := by
  simp only [Machine.commit, guarded_eq_ok_iff, bind_eq_ok_iff] at hm
  obtain ⟨s, hs, hm⟩ := hm
  have hs : m.rob.slots[m.rob.head]? = some s := readAt_eq_ok_iff.1 hs
  split at hm
  case isTrue => exact pure_eq_ok_iff.1 hm ▸ h
  case isFalse hbusy =>
    have htag : ∀ t, s.tag = some t → t.index.toNat < m.physical.count :=
      fun t => h.tags _ s t hs (by simpa using hbusy)
    split at hm
    case isTrue =>
      simp only [bind_eq_ok_iff, pure_eq_ok_iff] at hm
      obtain ⟨retired, hr, rfl⟩ := hm
      exact (h.retire htag hr).sheds (record_sheds _ _)
    case isFalse =>
      split at hm
      · simp only [commitHead, bind_eq_ok_iff, pure_eq_ok_iff] at hm
        obtain ⟨published, hp, retired, hr, rfl⟩ := hm
        have hsheds := ((m.modifySlot_sheds m.rob.head (f := fun s =>
          { s with state := .completed, times := { s.times with commit := some m.cycle } })
            fun _ => ⟨rfl, rfl, rfl⟩).trans (promote_sheds _ m.rob.head .committed)).trans (publish_sheds hp)
        have hretired := (h.sheds hsheds).retire (fun t ht => by rw [hsheds.physical]; exact htag t ht) hr
        refine Confined.sheds ?_ (record_sheds _ _)
        exact ⟨hretired.provided, hretired.instrs, hretired.tags, hretired.archs, hretired.holders, hretired.free⟩
      · exact pure_eq_ok_iff.1 hm ▸ h

/-! ### The cycle -/

theorem tick (h : m.Confined code) : m.tick.Confined code :=
  ⟨h.provided, h.instrs, h.tags, h.archs, h.holders, h.free⟩

theorem drained (h : m.Confined code) : m.takeEvents.2.Confined code :=
  ⟨h.provided, h.instrs, h.tags, h.archs, h.holders, h.free⟩

theorem settle (h : m.Confined code) : m.settle.Confined code := by
  unfold Machine.settle
  split
  · exact ⟨h.provided, h.instrs, h.tags, h.archs, h.holders, h.free⟩
  · exact h

theorem runCycle_sound (h : m.Confined code) : Sound m.runCycle := by
  unfold Machine.runCycle
  refine h.tick.writeResults_sound.bind fun written hw => ?_
  have hwritten := h.tick.writeResults hw
  refine (execute_sound written).bind fun executed he => ?_
  have hexecuted := hwritten.execute he
  exact hexecuted.issue_sound.bind fun issued hi =>
    (hexecuted.issue hi).commit_sound.bind fun _ _ => .ok _

theorem runCycle (h : m.Confined code) (hm : m.runCycle = .ok m') : m'.Confined code := by
  simp only [Machine.runCycle, bind_eq_ok_iff, pure_eq_ok_iff] at hm
  obtain ⟨written, hw, executed, he, issued, hi, last, hc, rfl⟩ := hm
  exact ((((h.tick.writeResults hw).execute he).issue hi).commit hc).settle

end Confined

end Machine

end OutOfOrder
