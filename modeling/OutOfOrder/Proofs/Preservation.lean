import OutOfOrder.Machine.Cycle
import OutOfOrder.Proofs.Coherence

/-!
Every move keeps a machine coherent: one part after the other, and for each the lemma of its own on what the
move changes of it.
-/

set_option autoImplicit false

namespace OutOfOrder

theorem Opcode.latency_ne_zero (op : Opcode) : op.latency ≠ 0 := by
  cases op <;> decide

theorem Opcode.latency_le (op : Opcode) : op.latency ≤ 5 := by
  cases op <;> decide

namespace Coherent

variable {code : List Instruction} {m m' : Machine} {d : List Deed}

theorem contiguous (h : Coherent code m) (hc : m.Change d m') : m'.rob.Contiguous := by
  cases hc
  case compute done | squash done | start done | complete done | issue done | commit done | discard done =>
    exact done.ring
  case wait | restart | countdown | stall => exact h.ring

theorem sequenced (h : Coherent code m) (hc : m.Change d m') :
    Sequenced code m'.fetch m'.rob.window m'.commits.toList := by
  cases hc
  case compute done =>
    dsimp only
    rw [done.window]
    refine h.order.promote done.mem done.isLive done.occupant done.current done.arrives.sameRole ?_ ?_
    · intro t ht hto
      refine (done.arrives.elsewhere t ht fun htt => hto ?_).1
      rw [h.slot_of_tag ht done.mem (htt.trans done.named.symm), done.occupant]
    · rw [Slot.revise, if_pos done.occupant]
      rfl
  case squash done =>
    dsimp only
    rw [done.window]
    exact h.order.squash done.uncommitted done.issued
  case start done =>
    dsimp only
    rw [done.window]
    exact h.order.map done.roles fun t ht => (done.same t ht).1
  case complete done =>
    dsimp only
    rw [done.window]
    refine h.order.promote done.mem done.isLive done.occupant done.current done.roles
      (fun t ht _ => (done.same t ht).1) ?_
    rw [(done.same _ done.mem).1, done.not_ready]
    simp
  case issue done =>
    dsimp only
    rw [done.window]
    exact h.order.issue done.next rfl rfl rfl rfl rfl _
  case commit done =>
    have horder := h.order
    rw [done.head] at horder
    dsimp only
    rw [done.window, Array.toList_push]
    exact (horder.commit done.live done.occupant done.current _).2
  case discard dead done =>
    have horder := h.order
    rw [done.head] at horder
    dsimp only
    rw [done.window]
    exact horder.discard dead
  case wait | restart | countdown | stall => exact h.order

theorem ages (h : Coherent code m) (hc : m.Change d m') : Aged m'.cycle m'.rob.window := by
  cases hc
  case compute done =>
    dsimp only
    rw [done.window]
    exact h.aged.map fun t ht => (done.arrives.sameRole t ht).issue
  case squash done =>
    dsimp only
    rw [done.window]
    refine h.aged.map fun t _ => ?_
    unfold Slot.cancelAfter
    split <;> rfl
  case start done | complete done =>
    dsimp only
    rw [done.window]
    exact h.aged.map fun t ht => (done.roles t ht).issue
  case issue done =>
    dsimp only
    rw [done.window]
    exact h.aged.append rfl
  case commit done | discard done =>
    have haged := h.aged
    rw [done.head] at haged
    dsimp only
    rw [done.window]
    exact haged.tail
  case wait | restart | countdown | stall => exact h.aged

theorem holds_results (h : Coherent code m) (hc : m.Change d m') :
    ∀ s ∈ m'.rob.window, s.ready = true → s.result.isSome = true := by
  cases hc
  case compute done =>
    dsimp only
    rw [done.window]
    exact done.arrives.isSome h.results
  case squash done =>
    dsimp only
    rw [done.window]
    intro s hs hready
    obtain ⟨t, ht, rfl⟩ := List.mem_map.1 hs
    unfold Slot.cancelAfter at hready ⊢
    split at hready
    · simp at hready
    · next hta =>
      rw [if_neg hta]
      exact h.results t ht hready
  case start done | complete done =>
    dsimp only
    rw [done.window]
    intro s hs hready
    obtain ⟨t, ht, rfl⟩ := List.mem_map.1 hs
    rw [(done.same t ht).1] at hready
    rw [(done.same t ht).2]
    exact h.results t ht hready
  case issue done =>
    dsimp only
    rw [done.window]
    intro s hs hready
    rcases List.mem_append.1 hs with hs | hs
    · exact h.results s hs hready
    · rw [List.mem_singleton.1 hs] at hready
      simp [Slot.issued] at hready
  case commit done | discard done =>
    dsimp only
    rw [done.window]
    exact fun t ht => h.results t (by rw [done.head]; exact List.mem_cons_of_mem _ ht)
  case wait | restart | countdown | stall => exact h.results

/-- The number of physical registers never changes, and their tags go round. -/
theorem circulates (h : Coherent code m) (hc : m.Change d m') :
    m'.physical.count = m.physical.count ∧ Circulates m'.rob.window m'.physical := by
  have hmap : ∀ u : Slot → Slot, (∀ t ∈ m.rob.window, (u t).tag = t.tag) →
      (m.rob.window.map u).map Slot.tag = m.rob.window.map Slot.tag := by
    intro u hu
    rw [List.map_map]
    exact List.map_congr_left hu
  cases hc
  case compute physical done =>
    obtain ⟨values, hw, hphysical⟩ := map_eq_ok_iff.1 done.written
    have hsize : physical.count = m.physical.count := by
      rw [← hphysical]
      exact size_writeAt hw
    dsimp only
    rw [done.window]
    refine ⟨hsize, h.tags.of_eq (hmap _ fun t ht => (done.arrives.sameRole t ht).tag) ?_ hsize⟩
    rw [← hphysical]
  case squash done =>
    dsimp only
    rw [done.window]
    exact ⟨rfl, h.tags.of_eq (hmap _ fun t _ => t.tag_cancelAfter _) rfl rfl⟩
  case start done | complete done =>
    dsimp only
    rw [done.window]
    exact ⟨rfl, h.tags.of_eq (hmap _ fun t ht => (done.roles t ht).tag) rfl rfl⟩
  case issue done =>
    dsimp only
    rw [done.window]
    exact ⟨done.count.trans (PhysicalFile.count_allocate done.register),
      (h.tags.allocate done.register rfl).of_eq rfl done.free done.count⟩
  case commit done | discard done =>
    have htags := h.tags
    rw [done.head] at htags
    dsimp only
    rw [done.window]
    exact ⟨PhysicalFile.count_release done.released, htags.release done.named done.released⟩
  case wait | restart | countdown | stall => exact ⟨rfl, h.tags⟩

theorem staffs (h : Coherent code m) (hc : m.Change d m') :
    Staffed m'.registers m'.rob.window m'.stations := by
  cases hc
  case compute done =>
    dsimp only
    rw [done.window]
    exact h.staffed.deliver done.station done.busy done.dest done.arrives
  case squash done =>
    dsimp only
    rw [done.window]
    exact h.staffed.squash (h.mem_tags_issuedAfter done.uncommitted) done.vacated
      (fun t ht => h.tags.isSome ht) h.nodup_tags fun j t hj hl hb => h.order.take_cancelAfter hj hl hb
  case start done =>
    dsimp only
    rw [done.window]
    exact h.staffed.map done.roles done.same
  case countdown station ready => exact h.staffed.countdown station ready
  case complete station ready done =>
    dsimp only
    rw [done.window]
    exact (h.staffed.countdown station ready).map done.roles done.same
  case issue done =>
    dsimp only
    rw [done.window]
    exact h.staffed.issue done.station done.idle rfl
      (fun t ht => h.tags.fresh h.count_le done.register ht) rfl rfl (Opcode.latency_ne_zero _) rfl
      done.serves
  case commit done =>
    have hstaffed := h.staffed
    have htags := h.tags
    rw [done.head] at hstaffed htags
    dsimp only
    rw [done.window]
    exact hstaffed.tail (by simp [Slot.isPending, done.ready]) fun k st hf =>
      hf.commit (fun t ht => htags.isSome (List.mem_cons_of_mem _ ht)) done.live done.ready done.result
        done.reads
  case discard dead done =>
    have hstaffed := h.staffed
    rw [done.head] at hstaffed
    dsimp only
    rw [done.window]
    exact hstaffed.tail (by simp [Slot.isPending, dead]) fun k st hf => hf.discard dead
  case wait | restart | stall => exact h.staffed

theorem move (h : Coherent code m) (hm : m.Move d m') : Coherent code m' where
  ring := h.contiguous (h.change hm)
  order := h.sequenced (h.change hm)
  aged := h.ages (h.change hm)
  results := h.holds_results (h.change hm)
  count_le := by
    rw [(h.circulates (h.change hm)).1]
    exact h.count_le
  tags := (h.circulates (h.change hm)).2
  staffed := h.staffs (h.change hm)

theorem moves (h : Coherent code m) {ds : List Deed} (hm : m.Moves ds m') : Coherent code m' :=
  hm.keeps (fun _ m => Coherent code m) (fun _ _ _ _ h hm => h.move hm) [] h

/-- The clock and what is reported are of no concern. -/
theorem of_eq (h : Coherent code m) (hrob : m'.rob = m.rob) (hfetch : m'.fetch = m.fetch)
    (hcommits : m'.commits = m.commits) (hcycle : m.cycle ≤ m'.cycle) (hphysical : m'.physical = m.physical)
    (hregisters : m'.registers = m.registers) (hstations : m'.stations = m.stations) :
    Coherent code m' where
  ring := by rw [hrob]; exact h.ring
  order := by rw [hrob, hfetch, hcommits]; exact h.order
  aged := by rw [hrob]; exact h.aged.mono hcycle
  results := by rw [hrob]; exact h.results
  count_le := by rw [hphysical]; exact h.count_le
  tags := by rw [hrob, hphysical]; exact h.tags
  staffed := by rw [hrob, hregisters, hstations]; exact h.staffed

theorem tick (h : Coherent code m) : Coherent code m.tick :=
  h.of_eq rfl rfl rfl (Nat.le_succ _) rfl rfl rfl

end Coherent

end OutOfOrder
