import OutOfOrder.Proofs.CommitOrder
import OutOfOrder.Proofs.Manning

/-!
Stations and slots stand for each other: the countdown of a station tells the stage of its version, the state
of a slot whether its result is there, and whoever waits on a tag waits on an older slot that is at work.
-/

set_option autoImplicit false

namespace OutOfOrder

open Machine

/-- In flight, neither cancelled nor written. -/
def Slot.isWaiting (s : Slot) : Bool := s.busy && s.state != .cancelled && s.state != .written

/-- Slots and versions show how far the work is. -/
structure Faithful (m : Machine) : Prop where
  state : ∀ s ∈ m.rob.window, s.isLive = true → (s.state = .written ↔ s.ready = true)
  stage : ∀ i st k s v, m.Mans i st k s v → v.stage = if st.remaining = 0 then .executed else .issued

namespace Faithful

variable {code : List Instruction} {m m' : Machine} {i k : Nat} {st : Station} {s : Slot} {v : Instance}
  {tag : Tag} {result : Word}

theorem start (hw : m.rob.window = []) : Faithful m where
  state := by simp [hw]
  stage := fun _ _ _ _ _ hm => absurd hm.mem (by simp [hw])

theorem of_core (h : Faithful m) (hcore : SameCore m m') : Faithful m' where
  state := hcore.rob ▸ h.state
  stage := fun j st' l s' v' hm => h.stage j st' l s' v' (hm.of_core hcore)

theorem gives (h : Faithful m) (hcoh : Coherent code m) (given : m.Gives i k st s v tag result m') :
    Faithful m' where
  state := by
    intro s' hs' hl
    rw [given.window] at hs'
    obtain ⟨t, ht, rfl⟩ := List.mem_map.1 hs'
    unfold Slot.revise at hl ⊢
    split at hl
    · next ho => simp [ho, Slot.holding]
    · next ho => simpa [ho] using h.state t ht hl
  stage := by
    intro j st' l s' v' hm
    obtain ⟨-, -, before, hbefore, rfl⟩ := Mans.of_gives hcoh given hm
    exact h.stage j before l s' v' hbefore

theorem clears (h : Faithful m) (hcoh : Coherent code m) {b : Nat} (cleared : m.Clears b m') :
    Faithful m' where
  state := by
    intro t ht hl
    exact h.state t (cleared.mem_of_isLive ht hl) hl
  stage := fun j st' l s' v' hm => h.stage j st' l s' v' (Mans.of_clears hcoh cleared hm).1

theorem runs (h : Faithful m) (hcoh : Coherent code m) (run : m.Runs i k st s v m') : Faithful m' where
  state := by
    intro s' hs' hl
    rw [run.window] at hs'
    obtain ⟨t, ht, rfl⟩ := List.mem_map.1 hs'
    unfold Slot.revise at hl ⊢
    split
    · next ho =>
      obtain rfl := hcoh.slot_of_occupant ht run.mem (ho.trans run.occupant.symm)
      have hstate := h.state t ht run.isLive
      have hready := run.not_ready
      unfold Slot.ran Slot.begun
      split <;> split <;> simp_all [Slot.executed, Slot.started]
    · next ho =>
      rw [if_neg ho] at hl
      exact h.state t ht hl
  stage := by
    intro j st' l s' v' hm
    rcases Mans.of_runs hcoh run hm with ⟨rfl, rfl, rfl, rfl, rfl⟩ | ⟨-, -, hbefore⟩
    · have hmore := run.more
      have hstage := h.stage _ _ _ _ _ run.mans
      dsimp only
      split
      · next hone => rw [hone]; rfl
      · next hmany => rw [hstage, if_neg hmore, if_neg (by omega)]
    · exact h.stage j st' l s' v' hbefore

theorem enters (h : Faithful m) (hcoh : Coherent code m) {left : Operand} {right : Option Operand}
    (entered : m.Enters v i st left right tag m') : Faithful m' where
  state := by
    intro s' hs' hl
    rw [entered.window] at hs'
    rcases List.mem_append.1 hs' with hs | hs
    · exact h.state s' hs hl
    · rw [List.mem_singleton.1 hs]
      simp [Slot.issued]
  stage := by
    intro j st' l s' v' hm
    rcases Mans.of_enters hcoh entered hm with ⟨-, -, rfl, -, rfl⟩ | ⟨-, -, hbefore⟩
    · exact (if_neg v.instr.opcode.latency_ne_zero).symm
    · exact h.stage j st' l s' v' hbefore

theorem leaves (h : Faithful m) {rest : List Slot} (left : m.Leaves s rest m') : Faithful m' where
  state := fun t ht => h.state t (left.mem ht)
  stage := fun j st' l s' v' hm => h.stage j st' (l + 1) s' v' (hm.of_leaves left)

theorem turn (h : Faithful m) (hcoh : Coherent code m) (ht : m.Turn m') : Faithful m' := by
  rcases ht with turn | turn | turn | turn
  case write =>
    cases turn with
    | idle => exact h
    | gives given => exact h.gives hcoh given
    | clears given cleared => exact (h.gives hcoh given).clears (hcoh.move given.move) cleared
  case execute =>
    cases turn with
    | rests => exact h
    | waits => exact h.of_core ⟨rfl, rfl, rfl, rfl, rfl, rfl, rfl, rfl⟩
    | runs run => exact h.runs hcoh run
  case issue =>
    cases turn with
    | ended => exact h
    | stalls => exact h.of_core ⟨rfl, rfl, rfl, rfl, rfl, rfl, rfl, rfl⟩
    | enters entered => exact h.enters hcoh entered
  case commit =>
    cases turn with
    | empty | early => exact h
    | commits left | discards left => exact h.leaves left

end Faithful

section

variable {config : Config} {code : List Instruction} {trace : List Deed} {s : Session} {m m' : Machine}
  {i k : Nat} {st : Station} {slot : Slot} {v : Instance}

theorem Session.Reached.faithful (hc : config.Admitted) (h : Session.Reached config code trace s) :
    Faithful s.machine :=
  h.keeps_turns hc Faithful (fun _ hm => .start (fresh_of_initial hc hm).window)
    (fun _ _ hcore hf => hf.of_core hcore) fun _ _ hcoh hf ht => hf.turn hcoh ht

theorem Faithful.isWaiting_iff (h : Faithful m) (hcoh : Coherent code m) (hs : slot ∈ m.rob.window) :
    slot.isWaiting = true ↔ slot.isPending = true := by
  have hb := hcoh.ring.busy_of_mem hs
  have hstate := h.state slot hs
  cases hst : slot.state <;> cases hr : slot.ready <;>
    simp_all [Slot.isWaiting, Slot.isPending, Slot.isLive]

/-- The ring has no busy slots but those of the window. -/
theorem Coherent.exists_place_of_busy (h : Coherent code m) (hs : m.rob.slots[i]? = some slot)
    (hb : slot.busy = true) : ∃ k, i = m.rob.place k ∧ m.rob.window[k]? = some slot := by
  obtain ⟨hlt, hget⟩ := Array.getElem?_eq_some_iff.1 hs
  obtain ⟨k, hk, rfl⟩ := ReorderBuffer.exists_place hlt
  have hnth : m.rob.nth k = slot := by rw [ReorderBuffer.nth, hget]
  have hbusy := h.ring.busy_nth k hk
  rw [hnth, hb] at hbusy
  rw [← hnth]
  exact ⟨k, rfl, h.ring.getElem?_window (of_decide_eq_true hbusy.symm)⟩

theorem Coherent.mans_of_tag (h : Coherent code m) (hi : m.stations.stations[i]? = some st)
    (hb : st.busy = true) (hk : m.rob.window[k]? = some slot) (ht : slot.tag = st.dest) :
    ∃ v, m.Mans i st k slot v := by
  obtain ⟨l, t, v, hm⟩ := exists_mans h hi hb
  obtain rfl := h.index_of_tag hm.slot hk (hm.named.trans ht.symm)
  obtain rfl := Option.some.inj (hk.symm.trans hm.slot)
  exact ⟨v, hm⟩

/-- A waiting slot stands in the window and is at work. -/
theorem Faithful.exists_place (h : Faithful m) (hcoh : Coherent code m) (hs : m.rob.slots[i]? = some slot)
    (hw : slot.isWaiting = true) :
    ∃ k, i = m.rob.place k ∧ m.rob.window[k]? = some slot ∧ slot.isPending = true := by
  have hb : slot.busy = true := by
    simp only [Slot.isWaiting, Bool.and_eq_true] at hw
    exact hw.1.1
  obtain ⟨k, hi, hk⟩ := hcoh.exists_place_of_busy hs hb
  exact ⟨k, hi, hk, (h.isWaiting_iff hcoh (List.mem_of_getElem? hk)).1 hw⟩

/-- Exactly one station works for a waiting slot. -/
theorem Faithful.existsUnique_station (h : Faithful m) (hcoh : Coherent code m)
    (hs : m.rob.slots[i]? = some slot) (hw : slot.isWaiting = true) :
    ∃! j : Nat, ∃ st : Station, m.stations.stations[j]? = some st ∧ st.busy = true ∧ st.dest = slot.tag := by
  obtain ⟨k, -, hk, hp⟩ := h.exists_place hcoh hs hw
  obtain ⟨j, st, hj, hb, hd⟩ := hcoh.staffed.manned slot (List.mem_of_getElem? hk) hp
  refine ⟨j, ⟨st, hj, hb, hd⟩, ?_⟩
  rintro j' ⟨st', hj', hb', hd'⟩
  exact hcoh.staffed.unique j' j st' st hj' hj hb' hb (hd'.trans hd.symm)

/-- A busy station works for exactly one slot. -/
theorem Faithful.existsUnique_slot (h : Faithful m) (hcoh : Coherent code m)
    (hi : m.stations.stations[i]? = some st) (hb : st.busy = true) :
    ∃! p : Nat, ∃ slot : Slot, m.rob.slots[p]? = some slot ∧ slot.isWaiting = true ∧
      slot.tag = st.dest := by
  obtain ⟨k, slot, v, hm⟩ := exists_mans hcoh hi hb
  refine ⟨m.rob.place k, ⟨slot, hcoh.ring.getElem?_slots hm.slot,
    (h.isWaiting_iff hcoh hm.mem).2 hm.pending, hm.named⟩, ?_⟩
  rintro p ⟨slot', hp, hw, ht⟩
  obtain ⟨k', rfl, hk', -⟩ := h.exists_place hcoh hp hw
  rw [hcoh.index_of_tag hk' hm.slot (ht.trans hm.named.symm)]

/-- A written slot that was not cancelled has its result, and its version has moved on with it. -/
theorem Faithful.of_written (h : Faithful m) (hcoh : Coherent code m) (hs : slot ∈ m.rob.window)
    (hw : slot.state = .written) : slot.ready = true ∧ slot.result.isSome = true ∧
      ∃ v, slot.occupant = some v.id ∧ m.fetch.get? v.id = some v ∧ v.stage = .written := by
  have hl : slot.isLive = true := by simp [Slot.isLive, hw]
  have hready := (h.state slot hs hl).1 hw
  obtain ⟨v, ho, hv⟩ := hcoh.exists_current hs hl
  have hstage := hcoh.order.stage_of_live hs hl ho hv
  rw [if_pos hready] at hstage
  exact ⟨hready, hcoh.results slot hs hready, v, ho, hcoh.order.orderly.get?_current hv, hstage⟩

/-- A value on the bus reaches whoever waits for it. -/
theorem Station.awaits_snoop (st : Station) (tag : Tag) (value : Word) :
    (st.snoop tag value).awaits tag = false := by
  have hsnoop : ∀ o : Operand, (o.snoop tag value).awaits tag = false := by
    intro o
    unfold Operand.snoop
    split
    · rfl
    · next hn => simpa using hn
  cases hl : st.left <;> cases hr : st.right <;> simp [Station.awaits, Station.snoop, hl, hr, hsnoop]

/-- After a result was written nobody waits for it. -/
theorem Machine.WriteTurn.awaits_eq_false (h : m.WriteTurn i m') {tag : Tag}
    (hi : m.stations.stations[i]? = some st) (hb : st.busy = true) (hd : st.dest = some tag) {j : Nat}
    {st' : Station} (hj : m'.stations.stations[j]? = some st') (hb' : st'.busy = true) :
    st'.awaits tag = false := by
  have hgiven : ∀ {k : Nat} {st₀ : Station} {s₀ : Slot} {v₀ : Instance} {q : Tag} {result : Word}
      {n : Machine}, m.Gives i k st₀ s₀ v₀ q result n → n.stations.stations[j]? = some st' →
      st'.awaits tag = false := by
    intro k st₀ s₀ v₀ q result n given hn
    obtain rfl := Option.some.inj (hi.symm.trans given.station)
    obtain rfl := Option.some.inj (hd.symm.trans given.dest)
    rw [given.stations] at hn
    obtain ⟨-, before, -, -, rfl⟩ := Staffed.busy_delivered hn hb'
    exact before.awaits_snoop tag result
  cases h with
  | idle free => simp [free st hi] at hb
  | gives given => exact hgiven given hj
  | clears given cleared => exact hgiven given (Staffed.busy_vacated cleared.stations hj hb').1

end

/-- One station for each slot that waits for its result and one slot for each busy station, found by tag. A
wake-up is never lost: the tag that a station waits for is that of an older slot that is at work, and once
the result is written nobody waits for it. -/
theorem stations_match_slots {config : Config} {code : List Instruction} {trace : List Deed} {s : Session}
    (hc : config.Admitted) (h : Session.Reached config code trace s) :
    let m := s.machine
    (∀ (i : Nat) (slot : Slot), m.rob.slots[i]? = some slot → slot.isWaiting = true →
      slot.tag.isSome = true ∧ ∃! j : Nat, ∃ st : Station, m.stations.stations[j]? = some st ∧ st.busy = true ∧
        st.dest = slot.tag) ∧
    (∀ (j : Nat) (st : Station), m.stations.stations[j]? = some st → st.busy = true →
      ∃! i : Nat, ∃ slot : Slot, m.rob.slots[i]? = some slot ∧ slot.isWaiting = true ∧ slot.tag = st.dest) ∧
    (∀ slot ∈ m.rob.slots, slot.busy = true → slot ∈ m.rob.window) ∧
    (∀ (j k : Nat) (st : Station) (slot : Slot), m.stations.stations[j]? = some st → st.busy = true →
      m.rob.window[k]? = some slot → slot.isWaiting = true → slot.tag = st.dest →
      ∃ v, slot.occupant = some v.id ∧ m.fetch.get? v.id = some v ∧ slot.instr = some v.instr ∧
        st.unit = v.instr.opcode.unit ∧ st.opcode = some v.instr.opcode ∧ st.imm = v.instr.imm ∧
        v.stage = (if st.remaining = 0 then .executed else .issued) ∧
        ∀ tag, st.awaits tag = true → ∃ l producer, l < k ∧ m.rob.window[l]? = some producer ∧
          producer.isWaiting = true ∧ producer.tag = some tag ∧ producer.arch.isSome = true) ∧
    (∀ slot ∈ m.rob.slots, slot.busy = true → slot.state = .written →
      slot.ready = true ∧ slot.result.isSome = true ∧
      ∃ v, slot.occupant = some v.id ∧ m.fetch.get? v.id = some v ∧ v.stage = .written) ∧
    ∀ (before after : List Nat) (i : Nat) (st : Station) (tag : Tag) (n n' : Machine),
      m.tick.stations.finished = before ++ i :: after → before.foldlM writeResult m.tick = .ok n →
      n.stations.stations[i]? = some st → st.busy = true → st.dest = some tag →
      n.writeResult i = .ok n' → ∀ (j : Nat) (st' : Station), n'.stations.stations[j]? = some st' →
        st'.busy = true → st'.awaits tag = false := by
  intro m
  have hcoh : Coherent code m := h.coherent hc
  have hf : Faithful m := h.faithful hc
  refine ⟨fun i slot hi hw => ⟨?_, hf.existsUnique_station hcoh hi hw⟩,
    fun j st hj hb => hf.existsUnique_slot hcoh hj hb, fun _ => hcoh.mem_window_of_busy,
    fun j k st slot hj hb hk _ ht => ?_,
    fun slot hs hb hw => hf.of_written hcoh (hcoh.mem_window_of_busy hs hb) hw, ?_⟩
  · obtain ⟨k, -, hk, -⟩ := hf.exists_place hcoh hi hw
    exact hcoh.tags.isSome (List.mem_of_getElem? hk)
  · obtain ⟨v, hm⟩ := hcoh.mans_of_tag hj hb hk ht
    obtain ⟨hinstr, hserves⟩ := hm.serves hcoh
    refine ⟨v, hm.occupant, hcoh.order.orderly.get?_current hm.current, hinstr, hserves.unit,
      hserves.opcode, hserves.imm, hf.stage j st k slot v hm, fun tag hw => ?_⟩
    obtain ⟨l, t, hlt, hl, hp, htag, harch⟩ := hm.exists_producer hcoh hw
    exact ⟨l, t, hlt, hl, (hf.isWaiting_iff hcoh (List.mem_of_getElem? hl)).2 hp, htag, harch⟩
  · intro before after i st tag n n' hfinished hbefore hi hb hd hwrite j st' hj hb'
    have hwriting : Writing code (before ++ i :: after) m.tick := hfinished ▸ .start hcoh.tick
    exact ((hwriting.foldlM hbefore).turn hwrite).1.awaits_eq_false hi hb hd hj hb'

/-- In the second cycle the addition waits for the product of the head. -/
theorem stations_match_slots_waiting : ∃ (config : Config) (code : List Instruction) (trace : List Deed)
    (s : Session) (v : Instance) (tag : Tag) (l : Nat) (producer : Slot), config.Admitted ∧
      Session.Reached config code trace s ∧ v.instr.opcode = .add ∧ v.stage = .issued ∧
      s.machine.stations.stations[0]?.any (·.awaits tag) = true ∧ l < 1 ∧
      s.machine.rob.window[l]? = some producer ∧ producer.isWaiting = true ∧ producer.tag = some tag := by
  let mul : Instruction := ⟨.mul, some ⟨1⟩, ⟨2⟩, some ⟨3⟩, 0, []⟩
  let add : Instruction := ⟨.add, some ⟨4⟩, ⟨1⟩, some ⟨1⟩, 0, []⟩
  let config : Config := { Config.standard with memorySize := 0 }
  have hadmitted : config.Admitted := ⟨by decide, by decide, by decide⟩
  have hrun : ∃ r ∈ Session.tracedRun config [mul, add] 2, ∃ st ∈ r.2.machine.stations.stations[0]?,
      ∃ slot ∈ r.2.machine.rob.window[1]?, st.busy = true ∧ st.opcode = some .add ∧ st.remaining = 1 ∧
        st.awaits ⟨0⟩ = true ∧ slot.isWaiting = true ∧ slot.tag = st.dest := by
    decide +kernel
  obtain ⟨⟨trace, s⟩, hr, st, hst, slot, hslot, hb, hop, hremaining, hawaits, hwaiting, htag⟩ := hrun
  have hreached := Session.Reached.of_tracedRun hr
  obtain ⟨-, -, -, hpairs, -⟩ := stations_match_slots hadmitted hreached
  obtain ⟨v, -, -, -, -, hopcode, -, hstage, hproducer⟩ := hpairs 0 1 st slot hst hb hslot hwaiting htag
  obtain ⟨l, producer, hl, hk, hp, ht, -⟩ := hproducer ⟨0⟩ hawaits
  rw [hremaining] at hstage
  exact ⟨config, _, trace, s, v, ⟨0⟩, l, producer, hadmitted, hreached,
    Option.some.inj (hopcode.symm.trans hop), hstage, by rw [Option.mem_def.1 hst]; exact hawaits, hl, hk, hp, ht⟩

end OutOfOrder
