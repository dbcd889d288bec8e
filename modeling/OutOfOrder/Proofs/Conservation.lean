import OutOfOrder.Proofs.Correspondence
import OutOfOrder.Proofs.Units

/-!
No physical register is ever lost or used twice: each is in the queue of the free ones or stands for the
result of exactly one slot in flight, and a slot that has left the ring keeps no tag.
-/

set_option autoImplicit false

namespace OutOfOrder

namespace ReorderBuffer

/-- A slot out of flight has given its tag back. -/
def Relinquished (b : ReorderBuffer) : Prop :=
  ∀ (i : Nat) (s : Slot), b.slots[i]? = some s → s.busy = false → s.tag = none

namespace Relinquished

variable {b b' : ReorderBuffer} {i : Nat}

/-- A slot may get a new tag while it is in flight. -/
theorem modify (h : b.Relinquished) (i : Nat) {f : Slot → Slot}
    (hf : ∀ s, b.slots[i]? = some s → (f s).busy = false → (f s).tag = none) :
    (b.modify i f).Relinquished := by
  intro j s' hj hb
  rw [getElem?_slots_modify] at hj
  split at hj
  · next hij =>
    obtain ⟨s, hs, rfl⟩ := Option.map_eq_some_iff.1 hj
    exact hf s (hij ▸ hs) hb
  · exact h j s' hj hb

/-- What leaves the flag and the tag of a slot alone. -/
theorem revise (h : b.Relinquished) (i : Nat) {f : Slot → Slot}
    (hf : ∀ s, (f s).busy = s.busy ∧ (f s).tag = s.tag) : (b.modify i f).Relinquished := by
  refine h.modify i fun s hs hb => ?_
  rw [(hf s).1] at hb
  rw [(hf s).2]
  exact h i s hs hb

theorem allocate (h : b.Relinquished) (ha : b.allocate = .ok (i, b')) :
    b'.Relinquished ∧ b'.slots[i]? = some .claimed := by
  unfold ReorderBuffer.allocate at ha
  split at ha
  · simp only [Except.ok.injEq, Prod.mk.injEq] at ha
    obtain ⟨rfl, rfl⟩ := ha
    refine ⟨fun j s hj hb => ?_, by simp⟩
    dsimp only at hj
    rw [Array.getElem?_set] at hj
    split at hj
    · obtain rfl := Option.some.inj hj
      simp [Slot.claimed] at hb
    · exact h j s hj hb
  · simp at ha

theorem retire (h : b.Relinquished) (hr : b.retire = .ok (i, b')) : b'.Relinquished := by
  unfold ReorderBuffer.retire at hr
  split at hr
  · simp only [Except.ok.injEq, Prod.mk.injEq] at hr
    obtain ⟨-, rfl⟩ := hr
    exact h.modify b.head (f := Slot.released) fun _ _ _ => rfl
  · simp at hr

theorem start {capacity : Nat} (h : ofCapacity capacity = .ok b) : b.Relinquished := by
  unfold ofCapacity at h
  split at h
  · obtain rfl := Except.ok.inj h
    intro i s hi _
    dsimp only at hi
    rw [Array.getElem?_replicate] at hi
    split at hi
    · obtain rfl := Option.some.inj hi
      rfl
    · simp at hi
  · simp at h

end Relinquished

end ReorderBuffer

namespace Machine

open ReorderBuffer (Relinquished)

variable {m m' : Machine}

theorem deliver_relinquishes {i slot : Nat} {name : String} {tag : Tag} {result : Word}
    {instr : Option Instruction} (h : m.rob.Relinquished)
    (hm : m.deliver i name slot tag result instr = .ok m') : m'.rob.Relinquished := by
  simp only [deliver, bind_eq_ok_iff, guarded_eq_ok_iff, pure_eq_ok_iff] at hm
  obtain ⟨physical, -, rfl⟩ := hm
  simp only [record, promote_rob]
  exact h.revise slot fun _ => ⟨rfl, rfl⟩

theorem cancel_relinquishes (h : m.rob.Relinquished) (id : InstanceId) : (m.cancel id).rob.Relinquished := by
  have hreleased : ∀ (n : Machine) (tag : Tag), (n.releaseTag tag).rob = n.rob := fun n tag => by
    unfold releaseTag
    split <;> rfl
  unfold cancel
  cases m.rob.slotOf id with
  | none => exact h
  | some i =>
    have hcancelled : (m.rob.modify i Slot.cancelled).Relinquished := h.revise i fun _ => ⟨rfl, rfl⟩
    dsimp only [record]
    split
    · rw [hreleased]
      exact hcancelled
    · exact hcancelled

theorem squashYounger_relinquishes (h : m.rob.Relinquished) (position : Nat) :
    (m.squashYounger position).rob.Relinquished := by
  unfold squashYounger
  let squashed := m.fetch.issuedAfter position
  obtain ⟨aliases, he⟩ := foldl_realias
    (squashed.foldl cancel { m with fetch := m.fetch.renewAfter position }) (squashed.filterMap m.renamedBy)
  have hfold : (squashed.foldl cancel { m with fetch := m.fetch.renewAfter position }).rob.Relinquished :=
    List.foldlRecOn (motive := fun n : Machine => n.rob.Relinquished) _ _ h
      fun _ hn id _ => cancel_relinquishes hn id
  show ((squashed.filterMap m.renamedBy).foldl realias _).rob.Relinquished
  rw [he]
  exact hfold

theorem startExecution_relinquishes (h : m.rob.Relinquished) (name : String) (i : Nat) (slot : Slot) :
    (m.startExecution name i slot).rob.Relinquished := by
  rw [startExecution_eq]
  split
  · exact h.revise i fun _ => ⟨rfl, rfl⟩
  · exact h

theorem completeExecution_relinquishes (h : m.rob.Relinquished) (name : String) (i : Nat) (slot : Slot) :
    (m.completeExecution name i slot).rob.Relinquished := by
  simp only [completeExecution, record, promote_rob]
  exact h.revise i fun _ => ⟨rfl, rfl⟩

theorem dispatch_relinquishes {v : Instance} {i : Nat} {left : Operand} {right : Option Operand} {tag : Tag}
    (h : m.rob.Relinquished) (hm : m.dispatch v i left right tag = .ok m') : m'.rob.Relinquished := by
  simp only [dispatch, bind_eq_ok_iff, guarded_eq_ok_iff, pure_eq_ok_iff] at hm
  obtain ⟨⟨slot, claimed⟩, ha, renamed, hr, st, -, rfl⟩ := hm
  obtain ⟨physical, aliases, -, -, rfl⟩ := rename_eq hr
  obtain ⟨hclaimed, hslot⟩ := h.allocate ha
  simp only [record, promote_rob]
  refine hclaimed.modify slot fun s hs hb => ?_
  obtain rfl := Option.some.inj (hslot.symm.trans hs)
  simp [Slot.claimed] at hb

theorem retire_relinquishes {tag : Option Tag} (h : m.rob.Relinquished) (hm : m.retire tag = .ok m') :
    m'.rob.Relinquished := by
  simp only [retire, bind_eq_ok_iff] at hm
  obtain ⟨⟨i, rob⟩, hr, hm⟩ := hm
  have hrob := h.retire hr
  cases tag with
  | none =>
    obtain rfl := pure_eq_ok_iff.1 hm
    exact hrob
  | some tag =>
    simp only [bind_eq_ok_iff, pure_eq_ok_iff] at hm
    obtain ⟨physical, -, rfl⟩ := hm
    exact hrob

theorem commitHead_relinquishes {s : Slot} (h : m.rob.Relinquished) (hm : m.commitHead s = .ok m') :
    m'.rob.Relinquished := by
  simp only [commitHead, bind_eq_ok_iff, pure_eq_ok_iff] at hm
  obtain ⟨published, hp, retired, hr, rfl⟩ := hm
  have hpublished : published.rob = m.rob.modify m.rob.head (Slot.completed m.cycle) := by
    unfold publish at hp
    split at hp
    · simp only [bind_eq_ok_iff, pure_eq_ok_iff] at hp
      obtain ⟨registers, -, rfl⟩ := hp
      exact promote_rob _ _ _
    · obtain rfl := Except.ok.inj hp
      exact promote_rob _ _ _
  have hrevised : published.rob.Relinquished := by
    rw [hpublished]
    exact h.revise m.rob.head fun _ => ⟨rfl, rfl⟩
  show retired.rob.Relinquished
  exact retire_relinquishes hrevised hr

theorem Move.relinquishes {d : List Deed} (hm : m.Move d m') (h : m.rob.Relinquished) :
    m'.rob.Relinquished := by
  cases hm with
  | @compute i k st s op tag id computed _ _ _ _ _ _ _ _ _ _ delivered =>
    let accessed := m.memory.access op computed (Station.operandValue st.right)
    exact deliver_relinquishes (m := { m with memory := accessed.2 }) h delivered
  | squash => exact squashYounger_relinquishes h _
  | start => exact startExecution_relinquishes h _ _ _
  | @complete i => exact completeExecution_relinquishes (m := m.countdown i) h _ _ _
  | @issue _ _ _ _ _ physical _ _ _ _ _ dispatched =>
    exact dispatch_relinquishes (m := { m with physical }) h dispatched
  | commit _ _ _ committed => exact commitHead_relinquishes h committed
  | @discard _ _ last _ _ retired =>
    show last.rob.Relinquished
    exact retire_relinquishes h retired
  | wait | countdown | stall => exact h

end Machine

theorem Session.Reached.relinquished {config : Config} {code : List Instruction} {trace : List Deed}
    {s : Session} (hc : config.Admitted) (h : Session.Reached config code trace s) :
    s.machine.rob.Relinquished := by
  refine h.keeps hc (fun _ m => m.rob.Relinquished) (fun m hm => ?_) (fun _ m m' hs hr => ?_)
    fun _ m _ m' _ hr hm => hm.relinquishes hr
  · obtain ⟨rob, hr, rfl⟩ := Machine.initial_eq hm
    rw [(Machine.sameCore_settle _).rob]
    exact .start hr
  · rw [hs.rob]
    exact hr

theorem ReorderBuffer.Contiguous.mem_inFlight_iff {b : ReorderBuffer} (h : b.Contiguous) {i : Nat} :
    i ∈ b.inFlight ↔ b.isBusy i = true := by
  have hle := h.length_le
  rw [h.inFlight_eq, List.mem_map]
  constructor
  · rintro ⟨k, hk, rfl⟩
    rw [List.mem_range] at hk
    rw [isBusy_place, h.busy_nth k (by omega)]
    exact decide_eq_true hk
  · intro hb
    have hi : i < b.slots.size := by
      by_contra hge
      simp [isBusy, Array.getElem?_eq_none (Nat.le_of_not_lt hge)] at hb
    obtain ⟨k, hk, rfl⟩ := exists_place hi
    rw [isBusy_place, h.busy_nth k hk, decide_eq_true_eq] at hb
    exact ⟨k, List.mem_range.2 hb, rfl⟩

/-- The slot with this number is in flight and its result belongs in the register. -/
def Machine.Holds (m : Machine) (i : Nat) (tag : Tag) : Prop :=
  ∃ slot, m.rob.slots[i]? = some slot ∧ slot.busy = true ∧ slot.tag = some tag

section Holds

variable {code : List Instruction} {m : Machine} {i j : Nat} {tag : Tag}

theorem Coherent.holds_iff (h : Coherent code m) :
    m.Holds i tag ↔ ∃ k slot, i = m.rob.place k ∧ m.rob.window[k]? = some slot ∧ slot.tag = some tag := by
  constructor
  · rintro ⟨slot, hi, hb, ht⟩
    obtain ⟨k, rfl, hk⟩ := h.exists_place_of_busy hi hb
    exact ⟨k, slot, rfl, hk, ht⟩
  · rintro ⟨k, slot, rfl, hk, ht⟩
    exact ⟨slot, h.ring.getElem?_slots hk, h.ring.busy_of_mem (List.mem_of_getElem? hk), ht⟩

theorem Coherent.holds_unique (h : Coherent code m) (hi : m.Holds i tag) (hj : m.Holds j tag) : i = j := by
  obtain ⟨k, s, rfl, hk, hs⟩ := h.holds_iff.1 hi
  obtain ⟨l, t, rfl, hl, ht⟩ := h.holds_iff.1 hj
  rw [h.index_of_tag hk hl (hs.trans ht.symm)]

theorem Coherent.exists_holds_iff (h : Coherent code m) :
    (∃ i, m.Holds i tag) ↔ some tag ∈ m.rob.window.map Slot.tag := by
  rw [List.mem_map]
  constructor
  · rintro ⟨i, hi⟩
    obtain ⟨k, slot, -, hk, ht⟩ := h.holds_iff.1 hi
    exact ⟨slot, List.mem_of_getElem? hk, ht⟩
  · rintro ⟨slot, hm, ht⟩
    obtain ⟨k, hk⟩ := List.mem_iff_getElem?.1 hm
    exact ⟨_, h.holds_iff.2 ⟨k, slot, rfl, hk, ht⟩⟩

/-- Free, or in use by one slot. -/
theorem Coherent.free_or_held (h : Coherent code m) (ht : tag ∈ allTags m.physical.count) :
    tag ∈ m.physical.free ∧ (∀ i, ¬m.Holds i tag) ∨ tag ∉ m.physical.free ∧ ∃! i, m.Holds i tag := by
  have hmem : some tag ∈ m.rob.window.map Slot.tag ++ m.physical.free.map some := by
    rw [List.IsRotated.mem_iff h.tags]
    exact List.mem_map_of_mem ht
  have hdisjoint := (List.nodup_append.1 (h.tags.nodup h.count_le)).2.2
  by_cases hfree : tag ∈ m.physical.free
  · refine .inl ⟨hfree, fun i hi => ?_⟩
    exact hdisjoint _ (h.exists_holds_iff.1 ⟨i, hi⟩) _ (List.mem_map_of_mem hfree) rfl
  · have hheld : some tag ∈ m.rob.window.map Slot.tag := by
      rcases List.mem_append.1 hmem with hw | hf
      · exact hw
      · obtain ⟨tag', hf, he⟩ := List.mem_map.1 hf
        exact absurd (Option.some.inj he ▸ hf) hfree
    obtain ⟨i, hi⟩ := h.exists_holds_iff.2 hheld
    exact .inr ⟨hfree, i, hi, fun j hj => h.holds_unique hj hi⟩

end Holds

/-- The registers of the busy slots, oldest first and the cancelled ones included, and behind them the queue
of the free ones make up all registers in their order but for where the list begins. So each is either free
or the destination of exactly one busy slot; a slot that is not busy has none. -/
theorem registers_circulate {config : Config} {code : List Instruction} {trace : List Deed} {s : Session}
    (hc : config.Admitted) (h : Session.Reached config code trace s) :
    let m := s.machine
    let tags := allTags (config.highestPhys.toNat + 1)
    (∀ i, i ∈ m.rob.inFlight ↔ m.rob.isBusy i = true) ∧
    m.rob.window.Pairwise (fun s t => notLater s.times.issue t.times.issue = true) ∧
    (m.rob.window.map Slot.tag ++ m.physical.free.map some).IsRotated (tags.map some) ∧
    (∀ tag ∈ tags, tag ∈ m.physical.free ∧ (∀ i, ¬m.Holds i tag) ∨
      tag ∉ m.physical.free ∧ ∃! i, m.Holds i tag) ∧
    ∀ (i : Nat) (slot : Slot), m.rob.slots[i]? = some slot → slot.busy = false → slot.tag = none := by
  intro m tags
  have hcoh : Coherent code m := h.coherent hc
  have hcount : m.physical.count = config.highestPhys.toNat + 1 := (h.equipped hc).registers
  refine ⟨fun _ => hcoh.ring.mem_inFlight_iff, hcoh.aged.sorted, ?_, fun tag ht => ?_, h.relinquished hc⟩
  · have htags := hcoh.tags
    rwa [Circulates, hcount] at htags
  · exact hcoh.free_or_held (hcount ▸ ht)

/-- Three registers and a branch that is taken: after five cycles the first register is back in the queue, the
second stands for the cancelled addition and the third for the one issued again. -/
theorem registers_circulate_branch : ∃ (config : Config) (code : List Instruction) (trace : List Deed)
    (s : Session), config.Admitted ∧ Session.Reached config code trace s ∧
      s.machine.counters.squashed = 1 ∧ s.machine.physical.free = [⟨0⟩] ∧
      (s.machine.rob.window.map Slot.tag ++ [some (⟨0⟩ : Tag)]).IsRotated ((allTags 3).map some) ∧
      ∃! i, s.machine.Holds i ⟨1⟩ := by
  let branch : Instruction := ⟨.beq, none, ⟨0⟩, some ⟨0⟩, 1, []⟩
  let add : Instruction := ⟨.add, some ⟨1⟩, ⟨2⟩, some ⟨3⟩, 0, []⟩
  let config : Config := { Config.standard with highestPhys := 2, memorySize := 0 }
  have hadmitted : config.Admitted := ⟨by decide, by decide, by decide⟩
  have hrun : ∃ r ∈ Session.tracedRun config [branch, add] 5, r.2.machine.counters.squashed = 1 ∧
      r.2.machine.physical.free = [⟨0⟩] := by
    decide +kernel
  obtain ⟨⟨trace, s⟩, hr, hsquashed, hfree⟩ := hrun
  change s.machine.physical.free = [⟨0⟩] at hfree
  have hreached := Session.Reached.of_tracedRun hr
  obtain ⟨-, -, hrotated, hheld, -⟩ := registers_circulate hadmitted hreached
  rw [hfree] at hrotated hheld
  have hone : (⟨1⟩ : Tag) ∈ allTags (config.highestPhys.toNat + 1) := by decide
  rcases hheld ⟨1⟩ hone with ⟨hin, -⟩ | ⟨-, hunique⟩
  · simp at hin
  · exact ⟨config, _, trace, s, hadmitted, hreached, hsquashed, hfree, hrotated, hunique⟩

end OutOfOrder
