import OutOfOrder.Proofs.Aliases

/-!
What a taken branch does to the machine, component by component: fetch starts the younger instructions over, their
slots are cancelled where they are, their stations are freed and the aliases go back to the writers up to the branch.
All the rest is left alone.
-/

set_option autoImplicit false

namespace OutOfOrder

/-! ### The ring -/

namespace ReorderBuffer

/-- The queue keeps its ends, and what is not in flight stays as it is. -/
structure InPlace (b b' : ReorderBuffer) : Prop where
  head : b'.head = b.head
  tail : b'.tail = b.tail
  capacity : b'.capacity = b.capacity
  idle : ∀ (j : Nat) (s : Slot), b.slots[j]? = some s → s.busy = false → b'.slots[j]? = some s

variable {a b c : ReorderBuffer} {i : Nat} {p : Slot → Bool}

theorem InPlace.refl (b : ReorderBuffer) : b.InPlace b := ⟨rfl, rfl, rfl, fun _ _ hj _ => hj⟩

theorem InPlace.trans (h : a.InPlace b) (h' : b.InPlace c) : a.InPlace c where
  head := h'.head.trans h.head
  tail := h'.tail.trans h.tail
  capacity := h'.capacity.trans h.capacity
  idle j s hj hs := h'.idle j s (h.idle j s hj hs) hs

theorem InPlace.modify (hi : b.isBusy i = true) (f : Slot → Slot) : b.InPlace (b.modify i f) where
  head := rfl
  tail := rfl
  capacity := b.capacity_modify i f
  idle j s hj hs := by
    have hne : i ≠ j := by
      rintro rfl
      simp [isBusy, hj, hs] at hi
    rw [getElem?_slots_modify, if_neg hne, hj]

theorem InPlace.place (h : a.InPlace b) (k : Nat) : b.place k = a.place k := by
  rw [ReorderBuffer.place, ReorderBuffer.place, h.head, h.capacity]

theorem isBusy_of_find (h : b.find p = some i) : b.isBusy i = true := by
  have hmem := List.mem_of_find?_eq_some h
  rw [inFlight, busyFrom_eq_takeWhile] at hmem
  exact List.all_eq_true.1 List.all_takeWhile i hmem

end ReorderBuffer

namespace Machine

variable {code : List Instruction} {m m' : Machine} {b i j k : Nat} {st : Station} {s : Slot} {v : Instance}

theorem cancel_inPlace (m : Machine) (id : InstanceId) : m.rob.InPlace (m.cancel id).rob := by
  have hrelease : ∀ (m : Machine) (tag : Tag), (m.releaseTag tag).rob = m.rob := by
    intro m tag
    unfold releaseTag
    split <;> rfl
  unfold cancel
  cases hf : m.rob.slotOf id with
  | none => exact .refl _
  | some i =>
    have hplace := ReorderBuffer.InPlace.modify (ReorderBuffer.isBusy_of_find hf) Slot.cancelled
    dsimp only
    split
    · rw [show ∀ (n : Machine) what, (n.record what).rob = n.rob from fun _ _ => rfl, hrelease]
      exact hplace
    · exact hplace

theorem squashYounger_inPlace (m : Machine) (b : Nat) : m.rob.InPlace (m.squashYounger b).rob := by
  have hcancelled : ∀ (ids : List InstanceId) (m : Machine), m.rob.InPlace (ids.foldl cancel m).rob := by
    intro ids
    induction ids with
    | nil => exact fun m => .refl _
    | cons id ids ih => exact fun m => (m.cancel_inPlace id).trans (ih (m.cancel id))
  rw [squashYounger, (foldl_realias_eq _ _).1]
  exact hcancelled _ { m with fetch := m.fetch.renewAfter b }

/-! ### The slots and stations -/

/-- In flight for a version that was current behind the position. -/
def Overtaken (m : Machine) (b : Nat) (s : Slot) : Prop :=
  s.busy = true ∧ ∃ p, b < p ∧ p < m.fetch.pc ∧ s.occupant = m.fetch.idAt p

/-- A slot in flight that was not cancelled and renames the register for the position. -/
structure WritesAt (m : Machine) (r : Register) (p : Nat) (s : Slot) : Prop where
  slot : s ∈ m.rob.slots
  busy : s.busy = true
  live : s.isLive = true
  arch : s.arch = some r
  occupant : ∃ id, s.occupant = some id ∧ id.position = p

/-- A busy station and the position whose slot waits for its result. -/
def WorksFor (m : Machine) (j : Nat) (st : Station) (p : Nat) : Prop :=
  ∃ k s v, m.Mans j st k s v ∧ v.id.position = p

theorem overtaken_iff (h : Coherent code m) (hb : m.commits.toList.length ≤ b) (hs : s ∈ m.rob.window) :
    m.Overtaken b s ↔ s.isAfter b = true := by
  rw [← h.order.mem_issuedAfter_iff hb hs, h.order.issuedAfter_eq, List.mem_map]
  constructor
  · rintro ⟨-, p, hbp, hp, ho⟩
    exact ⟨p, List.mem_range'_1.2 ⟨hbp, by omega⟩, ho.symm⟩
  · rintro ⟨p, hp, ho⟩
    obtain ⟨hbp, hp⟩ := List.mem_range'_1.1 hp
    exact ⟨h.ring.busy_of_mem hs, p, hbp, by omega, ho.symm⟩

theorem writesAt_iff (h : Coherent code m) {r : Register} {p : Nat} : m.WritesAt r p s ↔
    s ∈ m.rob.window ∧ s.isLive = true ∧ s.arch = some r ∧ ∃ id, s.occupant = some id ∧ id.position = p := by
  constructor
  · rintro ⟨hslot, hbusy, hl, ha, ho⟩
    obtain ⟨j, hj⟩ := Array.mem_iff_getElem?.1 hslot
    obtain ⟨k, -, hk⟩ := h.exists_place_of_busy hj hbusy
    exact ⟨List.mem_of_getElem? hk, hl, ha, ho⟩
  · rintro ⟨hs, hl, ha, ho⟩
    obtain ⟨k, hk⟩ := List.mem_iff_getElem?.1 hs
    exact ⟨Array.mem_of_getElem? (h.ring.getElem?_slots hk), h.ring.busy_of_mem hs, hl, ha, ho⟩

/-- Two writers at one position are the same slot. -/
theorem WritesAt.unique (h : Coherent code m) {r r' : Register} {p : Nat} {s t : Slot}
    (hs : m.WritesAt r p s) (ht : m.WritesAt r' p t) : s = t := by
  obtain ⟨hs, hl, -, id, ho, hp⟩ := (writesAt_iff h).1 hs
  obtain ⟨ht, hl', -, id', ho', hp'⟩ := (writesAt_iff h).1 ht
  obtain ⟨v, hv, hcurrent, -⟩ := h.order.current_of_live hs hl
  obtain ⟨v', hv', hcurrent', -⟩ := h.order.current_of_live ht hl'
  obtain rfl := Option.some.inj (ho.symm.trans hv)
  obtain rfl := Option.some.inj (ho'.symm.trans hv')
  rw [hp'.trans hp.symm, hcurrent, Option.some.injEq] at hcurrent'
  exact h.slot_of_occupant hs ht (by rw [ho, ho', hcurrent'])

/-! ### What is restored -/

/-- Before and after a branch at position `b` is taken. -/
structure Restores (m : Machine) (b : Nat) (m' : Machine) : Prop where
  cursor : m'.fetch.pc = b + 1
  renewed : ∀ p, b < p → p < m.fetch.pc → ∃ h h' : History, m.fetch.histories[p]? = some h ∧
    m'.fetch.histories[p]? = some h' ∧ h.current.stage ≠ .squashed ∧
    h'.past = h.past ++ [{ h.current with stage := .squashed }] ∧
    h'.current = .fresh h.current.instr p (h.current.version + 1)
  histories : ∀ p, ¬(b < p ∧ p < m.fetch.pc) → m'.fetch.histories[p]? = m.fetch.histories[p]?
  head : m'.rob.head = m.rob.head
  tail : m'.rob.tail = m.rob.tail
  capacity : m'.rob.capacity = m.rob.capacity
  held : ∀ p, b < p → p < m.fetch.pc → ∃ s ∈ m.rob.slots, s.busy = true ∧ s.occupant = m.fetch.idAt p
  cancelled : ∀ (j : Nat) (s : Slot), m.rob.slots[j]? = some s → m.Overtaken b s →
    m'.rob.slots[j]? = some { s with state := .cancelled, ready := false }
  slots : ∀ (j : Nat) (s : Slot), m.rob.slots[j]? = some s → ¬m.Overtaken b s → m'.rob.slots[j]? = some s
  table : m'.stations.size = m.stations.size
  stations : ∀ (j : Nat) (st : Station), m'.stations.stations[j]? = some st ∧ st.busy = true ↔
    ∃ p ≤ b, m.WorksFor j st p
  freed : ∀ (j : Nat) (st : Station), m.stations.stations[j]? = some st →
    m'.stations.stations[j]? = some st ∨ m'.stations.stations[j]? = some st.release
  aliases : ∀ r tag, m'.aliases.get? r = some tag ↔ ∃ p ≤ b, ∃ s, m.WritesAt r p s ∧ s.tag = some tag ∧
    ∀ q ≤ b, ∀ t, m.WritesAt r q t → q ≤ p
  counters : m'.counters = { m.counters with
    squashed := m.counters.squashed + (m.fetch.pc - (b + 1)) }
  registers : m'.registers = m.registers
  physical : m'.physical = m.physical
  memory : m'.memory = m.memory
  commits : m'.commits = m.commits
  finishedAt : m'.finishedAt = m.finishedAt

namespace Clears

theorem history (h : Coherent code m) (cleared : m.Clears b m') (p : Nat) :
    m'.fetch.histories[p]? = m.fetch.histories[p]?.map fun hist =>
      if b < p ∧ p < m.fetch.pc then hist.renew else hist := by
  rw [cleared.fetch, Fetch.renewAfter, Array.getElem?_mapIdx]
  cases hh : m.fetch.histories[p]? with
  | none => rfl
  | some hist =>
    have hcurrent : m.fetch.current? p = some hist.current := by rw [Fetch.current?, hh]; rfl
    have hissued := h.order.issued_iff hcurrent
    simp only [Option.map_some, Bool.and_eq_true, decide_eq_true_eq, History.inProgress, bne_iff_ne, hissued]

theorem slot (h : Coherent code m) (cleared : m.Clears b m') (inPlace : m.rob.InPlace m'.rob) (j : Nat)
    (hj : m.rob.slots[j]? = some s) (hs : s.busy = true) :
    s ∈ m.rob.window ∧ m'.rob.slots[j]? = some (s.cancelAfter b) := by
  obtain ⟨k, rfl, hk⟩ := h.exists_place_of_busy hj hs
  refine ⟨List.mem_of_getElem? hk, ?_⟩
  rw [← inPlace.place]
  refine (h.move cleared.move).ring.getElem?_slots ?_
  rw [cleared.window, List.getElem?_map, hk]
  rfl

/-- The writers that are left are those up to the branch. -/
theorem writesAt_iff (h : Coherent code m) (cleared : m.Clears b m') {r : Register} {p : Nat} :
    m'.WritesAt r p s ↔ m.WritesAt r p s ∧ p ≤ b := by
  rw [Machine.writesAt_iff h, Machine.writesAt_iff (h.move cleared.move), cleared.window, List.mem_map]
  constructor
  · rintro ⟨⟨t, ht, rfl⟩, hl, ha, id, ho, hp⟩
    obtain ⟨hafter, heq⟩ := Slot.cancelAfter_eq_self hl
    rw [heq] at hl ha ho ⊢
    refine ⟨⟨ht, hl, ha, id, ho, hp⟩, ?_⟩
    simpa [Slot.isAfter, hl, ho, hp] using hafter
  · rintro ⟨⟨hs, hl, ha, id, ho, hp⟩, hle⟩
    have hafter : s.isAfter b = false := by simpa [Slot.isAfter, hl, ho, hp] using hle
    exact ⟨⟨s, hs, Slot.cancelAfter_of_isAfter_eq_false hafter⟩, hl, ha, id, ho, hp⟩

theorem works_iff (h : Coherent code m) (cleared : m.Clears b m') (j : Nat) (st : Station) :
    m'.stations.stations[j]? = some st ∧ st.busy = true ↔ ∃ p ≤ b, m.WorksFor j st p := by
  constructor
  · rintro ⟨hj, hb⟩
    obtain ⟨k, s, v, hm⟩ := exists_mans (h.move cleared.move) hj hb
    obtain ⟨hm, hle⟩ := hm.of_clears h cleared
    exact ⟨_, hle, k, s, v, hm, rfl⟩
  · rintro ⟨p, hle, k, s, v, hm, rfl⟩
    refine ⟨?_, hm.busy⟩
    rw [cleared.stations, hm.station, Option.map_some, Staffed.vacate_of_ne]
    intro tag htag hdest
    obtain ⟨t, ht, hafter, htt⟩ := (h.mem_tags_issuedAfter cleared.uncommitted tag).1 htag
    obtain rfl := h.slot_of_tag ht hm.mem (htt.trans (hdest.symm.trans hm.named.symm))
    simp only [Slot.isAfter, hm.occupant, Option.any_some, Bool.and_eq_true, decide_eq_true_eq] at hafter
    omega

end Clears

/-- The alias of a register is the tag of its writer at the latest position. -/
theorem Named.alias_iff (hn : m.Named) (h : Coherent code m) (r : Register) (tag : Tag) :
    m.aliases.get? r = some tag ↔ ∃ p s, m.WritesAt r p s ∧ s.tag = some tag ∧
      ∀ q t, m.WritesAt r q t → q ≤ p := by
  -- the last writer in the window is the one at the latest position
  have hlatest : ∀ s, lastWriter m.rob.window r = some s → ∃ p, m.WritesAt r p s ∧
      ∀ q t, m.WritesAt r q t → q ≤ p := by
    intro s hw
    obtain ⟨k, hlast, -⟩ := h.lastToWrite hw
    obtain ⟨id, -, ho, -⟩ := h.order.holds s (List.mem_of_getElem? hlast.slot)
    refine ⟨id.position, (writesAt_iff h).2 ⟨List.mem_of_getElem? hlast.slot, hlast.live, hlast.arch, id, ho, rfl⟩,
      fun q t ht => ?_⟩
    obtain ⟨hmem, hl, ha, id', ho', rfl⟩ := (writesAt_iff h).1 ht
    obtain ⟨j, hj⟩ := List.mem_iff_getElem?.1 hmem
    by_cases hjk : j = k
    · rw [hjk, hlast.slot, Option.some.injEq] at hj
      rw [← hj, ho, Option.some.injEq] at ho'
      rw [ho']
    · obtain ⟨-, a, c, hta, hsc, hlt⟩ := hlast.behind j t hj hl ha hjk
      rw [ho', Option.some.injEq] at hta
      rw [ho, Option.some.injEq] at hsc
      rw [hta, hsc]
      exact Nat.le_of_lt hlt
  rw [hn.aliased r, Option.bind_eq_some_iff]
  constructor
  · rintro ⟨s, hw, ht⟩
    obtain ⟨p, hs, hmax⟩ := hlatest s hw
    exact ⟨p, s, hs, ht, hmax⟩
  · rintro ⟨p, s, hs, ht, hmax⟩
    obtain ⟨hmem, hl, ha, -⟩ := (writesAt_iff h).1 hs
    cases hw : lastWriter m.rob.window r with
    | none =>
      have hnone := lastWriter_eq_none_iff.1 hw s hmem
      simp [Slot.writes, hl, ha] at hnone
    | some u =>
      obtain ⟨q, hu, hmax'⟩ := hlatest u hw
      obtain rfl : p = q := Nat.le_antisymm (hmax' p s hs) (hmax q u hu)
      exact ⟨u, rfl, by rwa [← hs.unique h hu]⟩

theorem Clears.restores (h : Coherent code m) (hn : m.Named) (cleared : m.Clears b (m.squashYounger b)) :
    m.Restores b (m.squashYounger b) := by
  have h' := h.move cleared.move
  have hn' := hn.move h cleared.move
  have inPlace := m.squashYounger_inPlace b
  have hbelow : ∀ p, p < m.fetch.pc → p < code.length := fun p hp => by
    have hle := h.order.pc_le
    omega
  obtain ⟨rob, stations, events, aliases, heq, -, -, -⟩ :=
    squashYounger_eq h.ring h.order.nodup h.staffed.unique b
  exact {
    cursor := by rw [cleared.fetch, h.order.pc_renewAfter cleared.issued]
    renewed := fun p hbp hp => by
      obtain ⟨v, hv⟩ := h.order.orderly.exists_current (hbelow p hp)
      obtain ⟨hist, hh, rfl⟩ := Fetch.exists_history hv
      refine ⟨hist, hist.renew, hh, ?_, h.order.orderly.stage_current hv, rfl, ?_⟩
      · rw [cleared.history h, hh, Option.map_some, if_pos ⟨hbp, hp⟩]
      · rw [History.renew, h.order.orderly.position_current hv]
    histories := fun p hp => by
      rw [cleared.history h]
      simp only [if_neg hp, Option.map_id_fun', id_eq]
    head := inPlace.head
    tail := inPlace.tail
    capacity := inPlace.capacity
    held := fun p hbp hp => by
      have huncommitted := cleared.uncommitted
      obtain ⟨s, hs, -, ho⟩ := h.order.exists_live (by omega) hp
      obtain ⟨k, hk⟩ := List.mem_iff_getElem?.1 hs
      exact ⟨s, Array.mem_of_getElem? (h.ring.getElem?_slots hk), h.ring.busy_of_mem hs, ho⟩
    cancelled := fun j s hj ho => by
      obtain ⟨hs, hcancelled⟩ := cleared.slot h inPlace j hj ho.1
      rw [hcancelled, Slot.cancelAfter, if_pos ((overtaken_iff h cleared.uncommitted hs).1 ho)]
    slots := fun j s hj ho => by
      cases hb : s.busy with
      | false => exact inPlace.idle j s hj hb
      | true =>
        obtain ⟨hs, hcancelled⟩ := cleared.slot h inPlace j hj hb
        rw [hcancelled, Slot.cancelAfter, if_neg fun ha => ho ((overtaken_iff h cleared.uncommitted hs).2 ha)]
    table := (m.squashYounger_steady b).stations
    stations := cleared.works_iff h
    freed := fun j st hj => by
      rw [cleared.stations, hj, Option.map_some, Staffed.vacate]
      split
      · exact .inr rfl
      · exact .inl rfl
    aliases := fun r tag => by
      rw [hn'.alias_iff h']
      simp only [cleared.writesAt_iff h]
      constructor
      · rintro ⟨p, s, ⟨hs, hle⟩, ht, hmax⟩
        exact ⟨p, hle, s, hs, ht, fun q hq t ht => hmax q t ⟨ht, hq⟩⟩
      · rintro ⟨p, hle, s, hs, ht, hmax⟩
        exact ⟨p, s, ⟨hs, hle⟩, ht, fun q t ht => hmax q ht.2 t ht.1⟩
    counters := by rw [cleared.counters, h.order.length_issuedAfter]
    registers := by rw [heq]
    physical := by rw [heq]
    memory := by rw [heq]
    commits := cleared.commits
    finishedAt := (m.squashYounger_steady b).finishedAt }

/-! ### The point of a run -/

/-- Station `i` holds a branch for which the comparison gives one; `m'` is the machine once this result is
delivered, when the instances behind the branch are still in flight. -/
inductive TakesBranch (m : Machine) (i : Nat) (id : InstanceId) (m' : Machine) : Prop
  | intro {st : Station} {tag : Tag} {k : Nat} {s : Slot} {result : Word}
      (station : m.stations.stations[i]? = some st) (busy : st.busy = true) (opcode : st.opcode = some .beq)
      (dest : st.dest = some tag) (slotFor : m.rob.slotFor tag = some k) (slot : m.rob.slots[k]? = some s)
      (occupant : s.occupant = some id) (computes : st.result = .ok result) (one : (result == 1.0) = true)
      (delivered : m.deliver i st.name k tag result s.instr = .ok m') : TakesBranch m i id m'

theorem TakesBranch.clears (h : Coherent code m)
    (hdone : ∀ st, m.stations.stations[i]? = some st → st.busy = true → st.remaining = 0) {id : InstanceId}
    (taken : m.TakesBranch i id m') : m.writeResult i = .ok (m'.squashYounger id.position) ∧
      (∃ d, m.Move d m') ∧ m'.Clears id.position (m'.squashYounger id.position) := by
  obtain @⟨st, tag, _, s, result, station, busy, opcode, dest, slotFor, slot, occupant, computes, one,
    delivered⟩ := taken
  obtain ⟨k, s, v, op, tag, awaits, opcode', dest', named, slotFor'⟩ := exists_slot_of_busy h station busy
  obtain rfl := Option.some.inj (opcode.symm.trans opcode')
  obtain rfl := Option.some.inj (dest.symm.trans dest')
  obtain rfl := Option.some.inj (slotFor.symm.trans slotFor')
  obtain rfl := Option.some.inj (slot.symm.trans (h.ring.getElem?_slots awaits.slot))
  obtain rfl := Option.some.inj (occupant.symm.trans awaits.occupant)
  have given := gives h station busy (hdone _ station busy) awaits opcode dest named slotFor computes delivered
  refine ⟨?_, ⟨_, given.move⟩, given.clears h opcode rfl⟩
  have haccess : m.memory.access .beq result (Station.operandValue st.right) = (result, m.memory) := rfl
  simp only [writeResult, StationTable.station, readAt_eq_ok_iff.2 station, ReorderBuffer.slot,
    readAt_eq_ok_iff.2 slot, Halt.guarded_ok, busy, opcode, dest, slotFor, computes, haccess, delivered, bind,
    Except.bind, Opcode.isBranch, one, occupant, Bool.and_self]
  rfl

end Machine

/-- A taken branch restores the machine to what its younger instances found, and leaves the rest alone. This
holds at every point of the first phase of a cycle, whatever stations had their turns before. -/
theorem taken_branch_restores {config : Config} {code : List Instruction} {trace : List Deed} {s : Session}
    (hc : config.Admitted) (h : Session.Reached config code trace s) {before after : List Nat} {i : Nat}
    {id : InstanceId} {n m : Machine} (hdue : s.machine.tick.stations.finished = before ++ i :: after)
    (hbefore : before.foldlM Machine.writeResult s.machine.tick = .ok n) (htaken : n.TakesBranch i id m) :
    n.writeResult i = .ok (m.squashYounger id.position) ∧ id.position < m.fetch.pc ∧
      m.Restores id.position (m.squashYounger id.position) := by
  have htick := (h.coherent hc).tick
  have hstart := Machine.Writing.start htick
  rw [hdue] at hstart
  have hwriting := hstart.foldlM hbefore
  have hdone : Machine.Writing code before s.machine.tick :=
    ⟨htick, fun j hj => hstart.done j (List.mem_append_left _ hj)⟩
  have hmoves := Machine.writeResults_moves_of hdone hbefore
  have hnamed : n.Named := (hmoves.keeps (fun _ m => Coherent code m ∧ m.Named)
    (fun _ _ _ _ hk hm => ⟨hk.1.move hm, hk.2.move hk.1 hm⟩) []
    ⟨htick, (h.named hc).of_core (Machine.sameCore_tick _)⟩).2
  obtain ⟨hwrite, ⟨d, hmove⟩, cleared⟩ :=
    htaken.clears hwriting.coherent (hwriting.done i (List.mem_cons_self ..))
  exact ⟨hwrite, cleared.issued, cleared.restores (hwriting.coherent.move hmove)
    (hnamed.move hwriting.coherent hmove)⟩

/-- A multiplication and an addition behind the branch give their results in the same cycle as the branch and
before it. The branch takes the addition back, and the alias of its register with it. -/
theorem taken_branch_restores_writers : ∃ (config : Config) (code : List Instruction) (trace : List Deed)
    (s : Session) (n m : Machine) (id : InstanceId), config.Admitted ∧ Session.Reached config code trace s ∧
      s.machine.tick.stations.finished = [0, 3] ++ 7 :: [] ∧
      [0, 3].foldlM Machine.writeResult s.machine.tick = .ok n ∧ n.TakesBranch 7 id m ∧ id = ⟨1, 0⟩ ∧
      m.fetch.pc = 3 ∧ m.aliases.get? ⟨1⟩ = some ⟨2⟩ ∧ m.Restores 1 (m.squashYounger 1) ∧
      (m.squashYounger 1).aliases.get? ⟨1⟩ = some ⟨0⟩ := by
  let mul : Instruction := ⟨.mul, some ⟨1⟩, ⟨2⟩, some ⟨3⟩, 0, []⟩
  let branch : Instruction := ⟨.beq, none, ⟨0⟩, some ⟨0⟩, 1, []⟩
  let add : Instruction := ⟨.add, some ⟨1⟩, ⟨2⟩, some ⟨3⟩, 0, []⟩
  let config : Config := { Config.standard with memorySize := 0 }
  have hadmitted : config.Admitted := ⟨by decide, by decide, by decide⟩
  let takes (st : Station) (slot : Slot) (result : Word) : Bool :=
    st.busy && st.opcode == some .beq && slot.occupant == some ⟨1, 0⟩ && result == 1.0
  let shows (m : Machine) : Bool := m.fetch.pc == 3 && m.aliases.get? ⟨1⟩ == some ⟨2⟩ &&
    (m.squashYounger 1).aliases.get? ⟨1⟩ == some ⟨0⟩
  have hrun : ∃ r ∈ Session.tracedRun config [mul, branch, add] 4,
      r.2.machine.tick.stations.finished = [0, 3, 7] ∧
      ∃ n ∈ ([0, 3].foldlM Machine.writeResult r.2.machine.tick).toOption,
      ∃ st ∈ n.stations.stations[7]?, ∃ tag ∈ st.dest, ∃ k ∈ n.rob.slotFor tag, ∃ slot ∈ n.rob.slots[k]?,
      ∃ result ∈ st.result.toOption, ∃ m ∈ (n.deliver 7 st.name k tag result slot.instr).toOption,
        takes st slot result = true ∧ shows m = true := by
    decide +kernel
  obtain ⟨⟨trace, s⟩, hr, hdue, n, hn, st, hst, tag, htag, k, hk, slot, hslot, result, hresult, m, hm, htakes,
    hshows⟩ := hrun
  simp only [takes, Bool.and_eq_true, beq_iff_eq] at htakes
  simp only [shows, Bool.and_eq_true, beq_iff_eq] at hshows
  obtain ⟨⟨⟨busy, opcode⟩, occupant⟩, one⟩ := htakes
  obtain ⟨⟨hpc, hbefore⟩, hafter⟩ := hshows
  have hreached := Session.Reached.of_tracedRun hr
  have htaken : n.TakesBranch 7 ⟨1, 0⟩ m := .intro hst busy opcode htag hk hslot occupant
    (toOption_eq_some_iff.1 hresult) one (toOption_eq_some_iff.1 hm)
  have hbegun : [0, 3].foldlM Machine.writeResult s.machine.tick = .ok n := toOption_eq_some_iff.1 hn
  have hsplit : s.machine.tick.stations.finished = [0, 3] ++ 7 :: [] := hdue
  obtain ⟨-, -, hrestores⟩ := taken_branch_restores hadmitted hreached hsplit hbegun htaken
  exact ⟨config, _, trace, s, n, m, ⟨1, 0⟩, hadmitted, hreached, hdue, hbegun, htaken, rfl, hpc, hbefore,
    hrestores, hafter⟩

end OutOfOrder
