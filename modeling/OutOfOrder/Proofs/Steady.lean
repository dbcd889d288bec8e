import OutOfOrder.Proofs.Success

/-!
What no phase touches: the clock, the sizes of the components, and whether the program is complete.
-/

set_option autoImplicit false

namespace OutOfOrder

namespace ReorderBuffer

theorem capacity_allocate {b b' : ReorderBuffer} {i : Nat} (h : b.allocate = .ok (i, b')) :
    b'.capacity = b.capacity := by
  unfold allocate at h
  split at h
  · simp only [Except.ok.injEq, Prod.mk.injEq] at h
    obtain ⟨-, rfl⟩ := h
    simp [capacity]
  · simp at h

theorem capacity_retire {b b' : ReorderBuffer} {i : Nat} (h : b.retire = .ok (i, b')) :
    b'.capacity = b.capacity := by
  unfold retire at h
  split at h
  · simp only [Except.ok.injEq, Prod.mk.injEq] at h
    obtain ⟨-, rfl⟩ := h
    simp [capacity]
  · simp at h

end ReorderBuffer

theorem RegisterFile.count_set {f f' : RegisterFile} {r : Register} {value : Word}
    (h : f.set r value = .ok f') : f'.count = f.count := by
  rw [RegisterFile.set, map_eq_ok_iff] at h
  obtain ⟨values, hw, rfl⟩ := h
  exact size_writeAt hw

namespace PhysicalFile

variable {f f' : PhysicalFile} {tag : Tag}

theorem count_set {value : Word} (h : f.set tag value = .ok f') : f'.count = f.count := by
  rw [PhysicalFile.set, map_eq_ok_iff] at h
  obtain ⟨values, hw, rfl⟩ := h
  exact size_writeAt hw

theorem count_release (h : f.release tag = .ok f') : f'.count = f.count := by
  rw [PhysicalFile.release, map_eq_ok_iff] at h
  obtain ⟨values, hw, rfl⟩ := h
  exact size_writeAt hw

theorem count_allocate (h : f.allocate = some (tag, f')) : f'.count = f.count := by
  unfold allocate at h
  split at h
  · simp at h
  · simp only [Option.some.injEq, Prod.mk.injEq] at h
    obtain ⟨-, rfl⟩ := h
    rfl

end PhysicalFile

structure Steady (m m' : Machine) : Prop where
  cycle : m'.cycle = m.cycle
  finishedAt : m'.finishedAt = m.finishedAt
  capacity : m'.rob.capacity = m.rob.capacity
  stations : m'.stations.size = m.stations.size
  registers : m'.registers.count = m.registers.count
  physical : m'.physical.count = m.physical.count
  code : m'.fetch.histories.size = m.fetch.histories.size

namespace Steady

theorem refl (m : Machine) : Steady m m := ⟨rfl, rfl, rfl, rfl, rfl, rfl, rfl⟩

theorem trans {a b c : Machine} (h : Steady a b) (h' : Steady b c) : Steady a c where
  cycle := h'.cycle.trans h.cycle
  finishedAt := h'.finishedAt.trans h.finishedAt
  capacity := h'.capacity.trans h.capacity
  stations := h'.stations.trans h.stations
  registers := h'.registers.trans h.registers
  physical := h'.physical.trans h.physical
  code := h'.code.trans h.code

theorem foldl {β : Type} {f : Machine → β → Machine} (round : ∀ m x, Steady m (f m x)) (xs : List β)
    (m : Machine) : Steady m (xs.foldl f m) := by
  induction xs generalizing m with
  | nil => exact refl m
  | cons x rest ih => exact (round m x).trans (ih _)

theorem foldlM {β : Type} {f : Machine → β → Except Halt Machine}
    (round : ∀ m x m', f m x = .ok m' → Steady m m') {xs : List β} {m m' : Machine}
    (h : xs.foldlM f m = .ok m') : Steady m m' :=
  foldlM_keeps (fun _ s => Steady m s) (fun x _ s s' hs hf => hs.trans (round s x s' hf)) (refl m) h

end Steady

namespace Machine

variable {m m' : Machine}

theorem promote_eq (m : Machine) (i : Nat) (stage : Stage) : ∃ fetch : Fetch,
    fetch.histories.size = m.fetch.histories.size ∧ m.promote i stage = { m with fetch } := by
  unfold promote
  split
  · exact ⟨m.fetch, rfl, rfl⟩
  · split
    · exact ⟨m.fetch, rfl, rfl⟩
    · exact ⟨_, by simp [Fetch.modify], rfl⟩

section Promote

variable (m : Machine) (i : Nat) (stage : Stage)

@[simp] theorem promote_cycle : (m.promote i stage).cycle = m.cycle := by
  obtain ⟨_, _, he⟩ := m.promote_eq i stage
  rw [he]
  rfl

@[simp] theorem promote_finishedAt : (m.promote i stage).finishedAt = m.finishedAt := by
  obtain ⟨_, _, he⟩ := m.promote_eq i stage
  rw [he]

@[simp] theorem promote_registers : (m.promote i stage).registers = m.registers := by
  obtain ⟨_, _, he⟩ := m.promote_eq i stage
  rw [he]

@[simp] theorem promote_physical : (m.promote i stage).physical = m.physical := by
  obtain ⟨_, _, he⟩ := m.promote_eq i stage
  rw [he]

@[simp] theorem promote_aliases : (m.promote i stage).aliases = m.aliases := by
  obtain ⟨_, _, he⟩ := m.promote_eq i stage
  rw [he]

@[simp] theorem promote_rob : (m.promote i stage).rob = m.rob := by
  obtain ⟨_, _, he⟩ := m.promote_eq i stage
  rw [he]

@[simp] theorem promote_stations : (m.promote i stage).stations = m.stations := by
  obtain ⟨_, _, he⟩ := m.promote_eq i stage
  rw [he]

@[simp] theorem promote_counters : (m.promote i stage).counters = m.counters := by
  obtain ⟨_, _, he⟩ := m.promote_eq i stage
  rw [he]

@[simp] theorem size_histories_promote :
    (m.promote i stage).fetch.histories.size = m.fetch.histories.size := by
  obtain ⟨_, hs, he⟩ := m.promote_eq i stage
  rw [he]
  exact hs

theorem promote_steady : Steady m (m.promote i stage) := by
  constructor <;> simp

end Promote

theorem record_steady (m : Machine) (what : Happening) : Steady m (m.record what) :=
  ⟨rfl, rfl, rfl, rfl, rfl, rfl, rfl⟩

theorem modifySlot_steady (m : Machine) (i : Nat) (f : Slot → Slot) : Steady m (m.modifySlot i f) :=
  ⟨rfl, rfl, m.rob.capacity_modify i f, rfl, rfl, rfl, rfl⟩

/-! ### Write result -/

theorem releaseTag_steady (m : Machine) (tag : Tag) : Steady m (m.releaseTag tag) := by
  unfold releaseTag
  split
  · exact ⟨rfl, rfl, rfl, by simp [StationTable.release], rfl, rfl, rfl⟩
  · exact .refl m

theorem cancel_steady (m : Machine) (id : InstanceId) : Steady m (m.cancel id) := by
  unfold cancel
  cases m.rob.slotOf id with
  | none => exact ⟨rfl, rfl, rfl, rfl, rfl, rfl, rfl⟩
  | some i =>
    refine .trans ?_ (record_steady _ _)
    let counted : Machine :=
      { m with counters := { m.counters with squashed := m.counters.squashed + 1 } }
    have hs : Steady m (counted.modifySlot i fun s => { s with state := .cancelled, ready := false }) :=
      (⟨rfl, rfl, rfl, rfl, rfl, rfl, rfl⟩ : Steady m counted).trans (modifySlot_steady _ i _)
    dsimp only
    split
    · exact hs.trans (releaseTag_steady _ _)
    · exact hs

theorem realias_steady (m : Machine) (r : Register) : Steady m (m.realias r) := by
  unfold realias
  split <;> exact ⟨rfl, rfl, rfl, rfl, rfl, rfl, rfl⟩

theorem squashYounger_steady (m : Machine) (position : Nat) : Steady m (m.squashYounger position) := by
  have hr : Steady m { m with fetch := m.fetch.renewAfter position } :=
    ⟨rfl, rfl, rfl, rfl, rfl, rfl, by simp [Fetch.renewAfter]⟩
  exact (hr.trans (.foldl cancel_steady _ _)).trans (.foldl realias_steady _ _)

theorem deliver_steady {station : Nat} {name : String} {slot : Nat} {tag : Tag} {result : Word}
    {instr : Option Instruction} (h : m.deliver station name slot tag result instr = .ok m') :
    Steady m m' := by
  simp only [deliver, bind_eq_ok_iff, guarded_eq_ok_iff, pure_eq_ok_iff] at h
  obtain ⟨physical, hp, rfl⟩ := h
  have hc := PhysicalFile.count_set hp
  refine .trans ?_ (record_steady _ _)
  constructor <;> simp [cycle, modifySlot, StationTable.release, hc]

theorem writeResult_steady {i : Nat} (h : m.writeResult i = .ok m') : Steady m m' := by
  simp only [writeResult, bind_eq_ok_iff, guarded_eq_ok_iff] at h
  obtain ⟨station, -, h⟩ := h
  split at h
  case h_2 => exact pure_eq_ok_iff.1 h ▸ .refl m
  case h_1 op tag _ _ _ =>
    split at h
    case h_1 => exact pure_eq_ok_iff.1 h ▸ .refl m
    case h_2 k _ =>
      simp only [bind_eq_ok_iff, guarded_eq_ok_iff] at h
      obtain ⟨slot, -, h⟩ := h
      split at h
      case h_1 => simp [throw, throwThe, MonadExceptOf.throw] at h
      case h_2 computed _ =>
        simp only [bind_eq_ok_iff] at h
        obtain ⟨delivered, hd, h⟩ := h
        let accessed := (m.memory.access op computed (Station.operandValue station.right)).2
        have ha : Steady m { m with memory := accessed } := ⟨rfl, rfl, rfl, rfl, rfl, rfl, rfl⟩
        have hs : Steady m delivered := ha.trans (deliver_steady hd)
        split at h
        · exact pure_eq_ok_iff.1 h ▸ hs.trans (squashYounger_steady _ _)
        · exact pure_eq_ok_iff.1 h ▸ hs

theorem writeResults_steady (h : m.writeResults = .ok m') : Steady m m' :=
  .foldlM (fun _ _ _ => writeResult_steady) h

/-! ### Execute -/

theorem startExecution_steady (m : Machine) (name : String) (i : Nat) (slot : Slot) :
    Steady m (m.startExecution name i slot) := by
  unfold startExecution
  split
  · exact (modifySlot_steady m i _).trans (record_steady _ _)
  · exact .refl m

theorem completeExecution_steady (m : Machine) (name : String) (i : Nat) (slot : Slot) :
    Steady m (m.completeExecution name i slot) := by
  refine .trans ?_ (record_steady _ _)
  constructor <;> simp [cycle, modifySlot]

theorem executeStation_steady {i : Nat} (h : m.executeStation i = .ok m') : Steady m m' := by
  simp only [executeStation, bind_eq_ok_iff, guarded_eq_ok_iff] at h
  obtain ⟨station, -, h⟩ := h
  split at h
  case isTrue => exact pure_eq_ok_iff.1 h ▸ .refl m
  case isFalse =>
    split at h
    case isTrue =>
      obtain rfl := pure_eq_ok_iff.1 h
      exact ⟨rfl, rfl, rfl, rfl, rfl, rfl, rfl⟩
    case isFalse =>
      split at h
      case h_1 => exact pure_eq_ok_iff.1 h ▸ .refl m
      case h_2 k _ =>
        simp only [bind_eq_ok_iff, guarded_eq_ok_iff] at h
        obtain ⟨slot, -, h⟩ := h
        have hs := startExecution_steady m station.name k slot
        have ht : Steady m { m.startExecution station.name k slot with
            stations := (m.startExecution station.name k slot).stations.modify i
              fun s => { s with remaining := s.remaining - 1 } } :=
          hs.trans ⟨rfl, rfl, rfl, by simp, rfl, rfl, rfl⟩
        split at h
        · exact pure_eq_ok_iff.1 h ▸ ht.trans (completeExecution_steady _ _ _ _)
        · exact pure_eq_ok_iff.1 h ▸ ht

theorem execute_steady (h : m.execute = .ok m') : Steady m m' :=
  .foldlM (fun _ _ _ => executeStation_steady) h

/-! ### Issue -/

theorem stall_steady (m : Machine) (shortage : Shortage) : Steady m (m.stall shortage) :=
  ⟨rfl, rfl, rfl, rfl, rfl, rfl, rfl⟩

theorem rename_steady {dest : Option Register} {tag : Tag} (h : m.rename dest tag = .ok m') :
    Steady m m' := by
  unfold rename at h
  split at h
  · exact Except.ok.inj h ▸ .refl m
  · simp only [bind_eq_ok_iff, pure_eq_ok_iff] at h
    obtain ⟨value, -, physical, hp, rfl⟩ := h
    exact ⟨rfl, rfl, rfl, rfl, rfl, PhysicalFile.count_set hp, rfl⟩

theorem dispatch_steady {v : Instance} {s : Nat} {left : Operand} {right : Option Operand} {tag : Tag}
    (h : m.dispatch v s left right tag = .ok m') : Steady m m' := by
  simp only [dispatch, bind_eq_ok_iff, guarded_eq_ok_iff, pure_eq_ok_iff] at h
  obtain ⟨⟨slot, rob⟩, ha, renamed, hr, station, -, rfl⟩ := h
  have hrob : Steady m { m with rob } :=
    ⟨rfl, rfl, ReorderBuffer.capacity_allocate ha, rfl, rfl, rfl, rfl⟩
  have hs := (hrob.trans (modifySlot_steady _ slot _)).trans (rename_steady hr)
  refine .trans (hs.trans ?_) (record_steady _ _)
  constructor <;> simp [cycle, Fetch.advance]

theorem issue_steady (h : m.issue = .ok m') : Steady m m' := by
  unfold issue at h
  split at h
  case h_1 => exact pure_eq_ok_iff.1 h ▸ .refl m
  case h_2 v _ =>
    split at h
    case isTrue => exact pure_eq_ok_iff.1 h ▸ stall_steady m _
    case isFalse =>
      split at h
      case h_1 => exact pure_eq_ok_iff.1 h ▸ stall_steady m _
      case h_2 s _ =>
        simp only [bind_eq_ok_iff, guarded_eq_ok_iff] at h
        obtain ⟨⟨left, right⟩, -, h⟩ := h
        split at h
        case h_1 => exact pure_eq_ok_iff.1 h ▸ stall_steady m _
        case h_2 tag physical hp =>
          have ha : Steady m { m with physical } :=
            ⟨rfl, rfl, rfl, rfl, rfl, PhysicalFile.count_allocate hp, rfl⟩
          exact ha.trans (dispatch_steady h)

/-! ### Commit -/

theorem retire_steady {tag : Option Tag} (h : m.retire tag = .ok m') : Steady m m' := by
  simp only [retire, bind_eq_ok_iff] at h
  obtain ⟨⟨i, rob⟩, hr, h⟩ := h
  have hc := ReorderBuffer.capacity_retire hr
  split at h
  · exact pure_eq_ok_iff.1 h ▸ ⟨rfl, rfl, hc, rfl, rfl, rfl, rfl⟩
  · simp only [bind_eq_ok_iff, pure_eq_ok_iff] at h
    obtain ⟨physical, hp, rfl⟩ := h
    exact ⟨rfl, rfl, hc, rfl, rfl, PhysicalFile.count_release hp, rfl⟩

theorem publish_steady {slot : Slot} (h : m.publish slot = .ok m') : Steady m m' := by
  unfold publish at h
  split at h
  · simp only [bind_eq_ok_iff, pure_eq_ok_iff] at h
    obtain ⟨registers, hr, rfl⟩ := h
    exact ⟨rfl, rfl, rfl, rfl, RegisterFile.count_set hr, rfl, rfl⟩
  · exact Except.ok.inj h ▸ .refl m

theorem commitHead_steady {slot : Slot} (h : m.commitHead slot = .ok m') : Steady m m' := by
  simp only [commitHead, bind_eq_ok_iff, pure_eq_ok_iff] at h
  obtain ⟨published, hp, retired, hr, rfl⟩ := h
  have hs := (publish_steady hp).trans (retire_steady hr)
  have ht := ((modifySlot_steady m _ _).trans (promote_steady _ _ _)).trans hs
  exact ht.trans ⟨rfl, rfl, rfl, rfl, rfl, rfl, rfl⟩

theorem commit_steady (h : m.commit = .ok m') : Steady m m' := by
  simp only [commit, guarded_eq_ok_iff, bind_eq_ok_iff] at h
  obtain ⟨slot, -, h⟩ := h
  split at h
  case isTrue => exact pure_eq_ok_iff.1 h ▸ .refl m
  case isFalse =>
    split at h
    case isTrue =>
      simp only [bind_eq_ok_iff, pure_eq_ok_iff] at h
      obtain ⟨retired, hr, rfl⟩ := h
      exact (retire_steady hr).trans (record_steady _ _)
    case isFalse =>
      split at h
      · exact commitHead_steady h
      · exact pure_eq_ok_iff.1 h ▸ .refl m

/-! ### The cycle -/

theorem counters_settle (m : Machine) : m.settle.counters = m.counters := by
  unfold settle
  split <;> rfl

theorem cycle_settle (m : Machine) : m.settle.cycle = m.cycle := congrArg Counters.cycles m.counters_settle

theorem cycle_runCycle (h : m.runCycle = .ok m') : m'.cycle = m.cycle + 1 := by
  simp only [runCycle, bind_eq_ok_iff, pure_eq_ok_iff] at h
  obtain ⟨written, hw, executed, he, issued, hi, committed, hc, rfl⟩ := h
  have hs := (((writeResults_steady hw).trans (execute_steady he)).trans (issue_steady hi)).trans
    (commit_steady hc)
  rw [cycle_settle, hs.cycle]
  rfl

end Machine

end OutOfOrder
