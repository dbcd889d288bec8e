import OutOfOrder.Proofs.Run

/-!
The computations of a run against its machine. A result in flight was computed from the operands that its
instruction gets from the slots before it, and no version computes twice.
-/

set_option autoImplicit false

namespace OutOfOrder

/-- The result of the version has been written. -/
def Stage.isComputed : Stage → Bool
  | .written | .committed | .squashed => true
  | _ => false

/-- The result is what the operation makes of the operands and of some memory. -/
def Computation.Valid (c : Computation) : Prop :=
  ∃ (op : Opcode) (computed : Word) (memory : Memory), c.station.opcode = some op ∧
    c.station.result = .ok computed ∧
    c.result = (memory.access op computed (Station.operandValue c.station.right)).1

def AllComputed (f : Fetch) (cs : List Computation) : Prop :=
  ∀ c ∈ cs, ∃ v, f.get? c.id = some v ∧ v.stage.isComputed = true

theorem computations_append (trace d : List Deed) :
    computations (trace ++ d) = computations trace ++ computations d := List.filterMap_append

namespace AllComputed

variable {f : Fetch} {cs : List Computation}

theorem modify (h : AllComputed f cs) (id : InstanceId) (stage : Stage) (times : Times)
    (hs : stage.isComputed = true ∨ ∀ v, f.get? id = some v → v.stage.isComputed = false) :
    AllComputed (f.modify id (Sequenced.moved stage times)) cs := by
  intro c hc
  obtain ⟨v, hv, hcomputed⟩ := h c hc
  rw [Fetch.get?_modify]
  split
  · next hid =>
    subst hid
    rcases hs with hs | hs
    · exact ⟨Sequenced.moved stage times v, by rw [hv]; rfl, hs⟩
    · rw [hs v hv] at hcomputed
      simp at hcomputed
  · exact ⟨v, hv, hcomputed⟩

theorem renewAfter {code : List Instruction} (h : AllComputed f cs) (hf : f.Orderly code) (b : Nat) :
    AllComputed (f.renewAfter b) cs := by
  intro c hc
  obtain ⟨v, hv, hcomputed⟩ := h c hc
  refine ⟨_, Fetch.get?_renewAfter hf b hv, ?_⟩
  split
  · rfl
  · exact hcomputed

end AllComputed

structure Recorded (cs : List Computation) (m : Machine) : Prop where
  written : ∀ (k : Nat) (s : Slot), m.rob.window[k]? = some s → s.isLive = true → s.ready = true →
    ∃ c ∈ cs, s.occupant = some c.id ∧ s.result = some c.result ∧ c.station.isReady = true ∧
      Fed m.registers m.rob.window k c.station
  computed : AllComputed m.fetch cs
  nodup : (cs.map Computation.id).Nodup
  valid : ∀ c ∈ cs, c.Valid

namespace Recorded

variable {code : List Instruction} {cs : List Computation} {m m' : Machine} {s : Slot}

theorem start (m : Machine) (hw : m.rob.window = []) : Recorded [] m where
  written := by simp [hw]
  computed := by simp [AllComputed]
  nodup := List.nodup_nil
  valid := by simp

theorem of_eq (h : Recorded cs m) (hrob : m'.rob = m.rob) (hfetch : m'.fetch = m.fetch)
    (hregisters : m'.registers = m.registers) : Recorded cs m' where
  written := by rw [hrob, hregisters]; exact h.written
  computed := by rw [hfetch]; exact h.computed
  nodup := h.nodup
  valid := h.valid

/-- The version of a slot that waits has not computed. -/
theorem not_computed (hcoh : Coherent code m) (hs : s ∈ m.rob.window) (hp : s.isPending = true)
    {id : InstanceId} (ho : s.occupant = some id) :
    ∀ v, m.fetch.get? id = some v → v.stage.isComputed = false := by
  intro v hv
  obtain ⟨hl, hready⟩ := Slot.isPending_eq_true.1 hp
  have hst := hcoh.order.inFlight s hs hl id v ho hv
  simp only [hready, Bool.false_eq_true, if_false] at hst
  rcases hst with hst | hst <;> rw [hst] <;> rfl

/-- Slots make progress that leaves the results alone. -/
theorem of_progress (h : Recorded cs m) {u : Slot → Slot}
    (hu : ∀ t ∈ m.rob.window, t.SameRole (u t))
    (hr : ∀ t ∈ m.rob.window, (u t).ready = t.ready ∧ (u t).result = t.result)
    (hw : m'.rob.window = m.rob.window.map u) (hregisters : m'.registers = m.registers)
    (hcomputed : AllComputed m'.fetch cs) : Recorded cs m' where
  written := by
    intro k s' hk hl hready
    rw [hw, List.getElem?_map, Option.map_eq_some_iff] at hk
    obtain ⟨s, hk, rfl⟩ := hk
    have hs := List.mem_of_getElem? hk
    rw [(hu s hs).isLive] at hl
    rw [(hr s hs).1] at hready
    obtain ⟨c, hc, ho, hresult, hst, hf⟩ := h.written k s hk hl hready
    refine ⟨c, hc, ?_, ?_, hst, ?_⟩
    · rw [(hu s hs).occupant, ho]
    · rw [(hr s hs).2, hresult]
    · rw [hw, hregisters]
      exact hf.map hu hr
  computed := hcomputed
  nodup := h.nodup
  valid := h.valid

theorem compute (h : Recorded cs m) (hcoh : Coherent code m) {c : Computation}
    (hc : m.Change [.computed c] m') : Recorded (cs ++ [c]) m' := by
  cases hc
  case compute v op _ computed _ _ _ _ done =>
    have hnot := not_computed hcoh done.mem done.pending done.occupant
    constructor
    · intro j t' hj hl hr
      dsimp only at hj ⊢
      rw [done.window] at hj ⊢
      rw [List.getElem?_map, Option.map_eq_some_iff] at hj
      obtain ⟨t, hj, rfl⟩ := hj
      have htm := List.mem_of_getElem? hj
      by_cases hto : t.occupant = some v.id
      · obtain rfl := hcoh.slot_of_occupant htm done.mem (hto.trans done.occupant.symm)
        obtain ⟨-, hfed⟩ :=
          hcoh.pending_of_busy done.station done.busy hj (done.named.trans done.dest.symm)
        refine ⟨_, List.mem_append_right _ (List.mem_singleton_self _), ?_, ?_, done.ready, ?_⟩
        · rw [(done.arrives.sameRole t htm).occupant, done.occupant]
        · exact (done.arrives.here t htm done.named).2.2
        · have hd := hfed.deliver done.arrives
          rwa [Staffed.isReady_snoop done.ready] at hd
      · rw [Slot.revise, if_neg hto] at hl hr ⊢
        obtain ⟨c, hc, hco, hcr, hcs, hcf⟩ := h.written j t hj hl hr
        refine ⟨c, List.mem_append_left _ hc, hco, hcr, hcs, ?_⟩
        have hd := hcf.deliver done.arrives
        rwa [Staffed.isReady_snoop hcs] at hd
    · intro c hc
      rcases List.mem_append.1 hc with hc | hc
      · exact h.computed.modify _ _ _ (.inl rfl) c hc
      · rw [List.mem_singleton.1 hc]
        dsimp only
        rw [Fetch.get?_modify, if_pos rfl, hcoh.order.orderly.get?_current done.current]
        exact ⟨_, rfl, rfl⟩
    · rw [List.map_append, List.nodup_append]
      refine ⟨h.nodup, by simp, ?_⟩
      intro a hac b hb hab
      obtain ⟨c, hc, rfl⟩ := List.mem_map.1 hac
      simp only [List.map_cons, List.map_nil, List.mem_singleton] at hb
      obtain ⟨x, hx, hcomputed⟩ := h.computed c hc
      rw [hab, hb] at hx
      rw [hnot x hx] at hcomputed
      simp at hcomputed
    · intro c hc
      rcases List.mem_append.1 hc with hc | hc
      · exact h.valid c hc
      · rw [List.mem_singleton.1 hc]
        exact ⟨op, computed, m.memory, done.opcode, done.computes,
          (congrArg Prod.fst done.accesses).symm⟩

/-- The head leaves, and for its readers nothing changes. -/
theorem tail {rest : List Slot} (h : Recorded cs m) (hw : m.rob.window = s :: rest)
    (hw' : m'.rob.window = rest) (hcomputed : AllComputed m'.fetch cs)
    (hfed : ∀ k st, Fed m.registers (s :: rest) (k + 1) st → Fed m'.registers rest k st) :
    Recorded cs m' where
  written := by
    intro k t hk hl hr
    rw [hw'] at hk ⊢
    have hk' : m.rob.window[k + 1]? = some t := by rw [hw]; exact hk
    obtain ⟨c, hc, hco, hcr, hcs, hcf⟩ := h.written (k + 1) t hk' hl hr
    rw [hw] at hcf
    exact ⟨c, hc, hco, hcr, hcs, hfed k _ hcf⟩
  computed := hcomputed
  nodup := h.nodup
  valid := h.valid

theorem move (h : Recorded cs m) (hcoh : Coherent code m) {d : List Deed} (hm : m.Move d m') :
    Recorded (cs ++ computations d) m' := by
  have hnil : cs ++ computations [] = cs := List.append_nil cs
  cases hcoh.change hm
  case compute => exact h.compute hcoh (hcoh.change hm)
  case squash done =>
    rw [hnil]
    refine ⟨fun k t' hk htl hr => ?_, h.computed.renewAfter hcoh.order.orderly _, h.nodup, h.valid⟩
    dsimp only at hk ⊢
    rw [done.window] at hk ⊢
    rw [List.getElem?_map, Option.map_eq_some_iff] at hk
    obtain ⟨t, hk, rfl⟩ := hk
    obtain ⟨hta, hself⟩ := Slot.cancelAfter_eq_self htl
    rw [hself] at htl hr ⊢
    obtain ⟨c, hc, hco, hcr, hcs, hcf⟩ := h.written k t hk htl hr
    exact ⟨c, hc, hco, hcr, hcs, hcf.of_take_eq (hcoh.order.take_cancelAfter hk htl hta)⟩
  case start done =>
    rw [hnil]
    exact h.of_progress done.roles done.same done.window rfl h.computed
  case complete done =>
    rw [hnil]
    have hnot := not_computed hcoh done.mem done.pending done.occupant
    exact h.of_progress done.roles done.same done.window rfl (h.computed.modify _ _ _ (.inr hnot))
  case issue done =>
    rw [hnil]
    refine ⟨fun k t hk hl hr => ?_, h.computed.modify _ .issued _ (.inr fun x hx => ?_), h.nodup, h.valid⟩
    · dsimp only at hk ⊢
      rw [done.window] at hk ⊢
      rw [List.getElem?_append] at hk
      split at hk
      · obtain ⟨c, hc, hco, hcr, hcs, hcf⟩ := h.written k t hk hl hr
        exact ⟨c, hc, hco, hcr, hcs, hcf.append _⟩
      · rw [List.getElem?_singleton] at hk
        split at hk
        · obtain rfl := Option.some.inj hk
          simp [Slot.issued] at hr
        · simp at hk
    · rw [hcoh.order.orderly.get?_current done.current] at hx
      obtain rfl := Option.some.inj hx
      rw [hcoh.order.waiting _ _ (Nat.le_refl _) done.next]
      rfl
  case commit done =>
    rw [show cs ++ computations [.retired _] = cs from hnil]
    have htags := hcoh.tags
    rw [done.head] at htags
    exact h.tail done.head done.window (h.computed.modify _ _ _ (.inl rfl)) fun k st hf =>
      hf.commit (fun t ht => htags.isSome (List.mem_cons_of_mem _ ht)) done.live done.ready done.result
        done.reads
  case discard dead done =>
    rw [hnil]
    exact h.tail done.head done.window h.computed fun k st hf => hf.discard dead
  case wait | restart | countdown | stall =>
    rw [hnil]
    exact h.of_eq rfl rfl rfl

end Recorded

end OutOfOrder
