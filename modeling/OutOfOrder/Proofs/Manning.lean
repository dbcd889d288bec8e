import OutOfOrder.Proofs.Turns

/-!
Which station works for which slot, and where such a pair was before a turn. What is to hold of every pair
needs a look at no other station and no other slot.
-/

set_option autoImplicit false

namespace OutOfOrder

/-- The registers of the operands. -/
def Instruction.reads (i : Instruction) : List Register := i.sources.1 :: i.sources.2.toList

section Source

variable {regs : RegisterFile} {w : List Slot} {r : Register}

/-- The last writer before a place has a place before it. -/
theorem exists_index_of_lastWriter {k : Nat} {s : Slot} (h : lastWriter (w.take k) r = some s) :
    ∃ l < k, w[l]? = some s ∧ s.isLive = true ∧ s.arch = some r := by
  obtain ⟨hmem, hwrites⟩ := mem_of_lastWriter h
  obtain ⟨l, hl⟩ := List.mem_iff_getElem?.1 hmem
  rw [List.getElem?_take] at hl
  split at hl
  · next hlt =>
    simp only [Slot.writes, Bool.and_eq_true, beq_iff_eq] at hwrites
    exact ⟨l, hlt, hl, hwrites⟩
  · simp at hl

/-- An operand that is still to come is the result of the last writer. -/
theorem source_eq_pending (hresults : ∀ s ∈ w, s.ready = true → s.result.isSome = true) {tag : Tag}
    (h : source regs w r = .pending tag) :
    ∃ s, lastWriter w r = some s ∧ s.tag = some tag ∧ s.ready = false := by
  unfold source at h
  cases hl : lastWriter w r with
  | none => simp [hl] at h
  | some s =>
    refine ⟨s, rfl, ?_⟩
    have hresult := hresults s (mem_of_lastWriter hl).1
    simp only [hl] at h
    cases hready : s.ready <;> cases hres : s.result <;> cases htag : s.tag <;>
      simp_all [Slot.operand]

theorem isResolved_source (htags : ∀ s ∈ w, s.tag.isSome = true)
    (hresults : ∀ s ∈ w, s.ready = true → s.result.isSome = true) :
    (source regs w r).isResolved = true ↔ ∀ s, lastWriter w r = some s → s.ready = true := by
  cases hsource : source regs w r with
  | pending tag =>
    obtain ⟨s, hl, -, hready⟩ := source_eq_pending hresults hsource
    simp [Operand.isResolved, Operand.value?, hl, hready]
  | resolved value =>
    refine iff_of_true rfl fun s hl => ?_
    obtain ⟨tag, htag⟩ := Option.isSome_iff_exists.1 (htags s (mem_of_lastWriter hl).1)
    cases hready : s.ready with
    | true => rfl
    | false => simp [source, hl, Slot.operand, hready, htag] at hsource

theorem Serves.isReady_iff {from? : Register → Operand} {instr : Instruction} {st : Station}
    (h : Serves from? instr st) (hb : st.busy = true) :
    st.isReady = true ↔ ∀ r ∈ instr.reads, (from? r).isResolved = true := by
  simp only [Station.isReady, hb, h.left, h.right, Instruction.reads]
  cases instr.sources.2 <;> simp

theorem Serves.exists_of_awaits {from? : Register → Operand} {instr : Instruction} {st : Station}
    (h : Serves from? instr st) {tag : Tag} (hw : st.awaits tag = true) :
    ∃ r ∈ instr.reads, from? r = .pending tag := by
  have hawaits : ∀ o : Operand, o.awaits tag = true ↔ o = .pending tag := fun o => beq_iff_eq
  simp only [Station.awaits, h.left, h.right, Instruction.reads] at hw ⊢
  cases hs : instr.sources.2 <;> simp_all

end Source

namespace Machine

open Sequenced (moved)

/-- A busy station, the slot that it works for and the version in the slot. -/
structure Mans (m : Machine) (i : Nat) (st : Station) (k : Nat) (s : Slot) (v : Instance) : Prop
    extends m.Awaits k s v where
  station : m.stations.stations[i]? = some st
  busy : st.busy = true
  named : s.tag = st.dest

variable {code : List Instruction} {m m' : Machine} {i i₀ k k₀ : Nat} {st st₀ : Station} {s s₀ : Slot}
  {v v₀ : Instance} {tag : Tag} {result : Word}

theorem exists_mans (h : Coherent code m) (hi : m.stations.stations[i]? = some st) (hb : st.busy = true) :
    ∃ k s v, m.Mans i st k s v := by
  obtain ⟨k, s, v, -, tag, awaits, -, dest, named, -⟩ := exists_slot_of_busy h hi hb
  exact ⟨k, s, v, awaits, hi, hb, named.trans dest.symm⟩

theorem exists_mans_of_awaits (h : Coherent code m) (awaits : m.Awaits k s v) :
    ∃ i st, m.Mans i st k s v := by
  obtain ⟨i, st, hi, hb, hd⟩ := h.staffed.manned s awaits.mem awaits.pending
  exact ⟨i, st, awaits, hi, hb, hd.symm⟩

theorem Awaits.ext (h : Coherent code m) (ha : m.Awaits k s v) (ha₀ : m.Awaits k₀ s₀ v₀)
    (hid : v.id = v₀.id) : k = k₀ ∧ s = s₀ ∧ v = v₀ := by
  have hs : s = s₀ := h.slot_of_occupant ha.mem ha₀.mem (by rw [ha.occupant, ha₀.occupant, hid])
  have hc := ha.current
  rw [hid, ha₀.current] at hc
  have hk := ha.slot
  rw [hs] at hk
  exact ⟨h.index_of_tag hk ha₀.slot rfl, hs, (Option.some.inj hc).symm⟩

/-- A version moves on, and its slot with it: any other slot that waits has waited before. -/
theorem Awaits.before (h : Coherent code m) (ha₀ : m.Awaits k₀ s₀ v₀) {g : Slot → Slot} {v₁ : Instance}
    (hid : v₁.id = v₀.id) (hg : (g s₀).occupant = s₀.occupant)
    (hwindow : m'.rob.window = m.rob.window.map (Slot.revise v₀.id g))
    (hfetch : ∀ q, m'.fetch.current? q = if q = v₀.id.position then some v₁ else m.fetch.current? q)
    (hpc : m'.fetch.pc = m.fetch.pc) (hcommits : m'.commits = m.commits) (ha : m'.Awaits k s v) :
    k = k₀ ∧ s = g s₀ ∧ v = v₁ ∨ m.Awaits k s v ∧ v.id ≠ v₀.id := by
  have hslot := ha.slot
  have hcurrent := ha.current
  rw [hwindow, List.getElem?_map, Option.map_eq_some_iff] at hslot
  obtain ⟨t, ht, rfl⟩ := hslot
  rw [hfetch] at hcurrent
  by_cases ho : t.occupant = some v₀.id
  · have hts := h.slot_of_occupant (List.mem_of_getElem? ht) ha₀.mem (ho.trans ha₀.occupant.symm)
    subst hts
    have hocc := ha.occupant
    rw [Slot.revise, if_pos ho] at hocc ⊢
    rw [hg, ha₀.occupant, Option.some.injEq] at hocc
    rw [if_pos (by rw [hocc]), Option.some.injEq] at hcurrent
    exact .inl ⟨h.index_of_tag ht ha₀.slot rfl, rfl, hcurrent.symm⟩
  · rw [Slot.revise, if_neg ho] at ha ⊢
    have hne : v.id ≠ v₀.id := fun he => ho (he ▸ ha.occupant)
    split at hcurrent
    · rw [Option.some.injEq] at hcurrent
      exact absurd (hcurrent ▸ hid) hne
    · exact .inr ⟨⟨ht, ha.pending, ha.occupant, hcurrent, hcommits ▸ ha.uncommitted, hpc ▸ ha.issued⟩, hne⟩

/-- The version that moves is the only one that does. -/
theorem Awaits.current?_modify (h : Coherent code m) (ha : m.Awaits k s v) (stage : Stage) (times : Times)
    (q : Nat) : (m.fetch.modify v.id (moved stage times)).current? q =
      if q = v.id.position then some (moved stage times v) else m.fetch.current? q :=
  Fetch.current?_modify h.order.orderly ha.current _ q

theorem Runs.busy (run : m.Runs i k st s v m') : st.busy = true := by
  have hr := run.ready
  simp only [Station.isReady, Bool.and_eq_true] at hr
  exact hr.1.1

/-- A station that is about to execute works for its slot. -/
theorem Runs.mans (run : m.Runs i k st s v m') : m.Mans i st k s v :=
  ⟨run.toAwaits, run.station, run.busy, run.named⟩

theorem Runs.sameRole (h : Coherent code m) (run : m.Runs i k st s v m') :
    ∀ t ∈ m.rob.window, t.SameRole (t.revise v.id (Slot.ran m.cycle st.remaining)) :=
  Coherent.revise_sameRole fun t ht ho => by
    rw [h.slot_of_occupant ht run.mem (ho.trans run.occupant.symm)]
    exact Slot.ran_sameRole run.isLive _ _

theorem Runs.pc_eq (run : m.Runs i k st s v m') : m'.fetch.pc = m.fetch.pc := by
  rw [run.fetch]
  split <;> rfl

theorem Gives.mans (given : m.Gives i k st s v tag result m') : m.Mans i st k s v :=
  ⟨given.toAwaits, given.station, given.busy, given.named.trans given.dest.symm⟩

/-! ### Which slots were there before -/

variable {t : Slot}

/-- Only the slot that got its result has become ready. -/
theorem Gives.mem_of_ready (h : Coherent code m) (given : m.Gives i k st s v tag result m')
    (ht : t ∈ m'.rob.window) (hr : t.ready = true) : t = s.holding m.cycle result ∨ t ∈ m.rob.window := by
  rw [given.window] at ht
  obtain ⟨u, hu, rfl⟩ := List.mem_map.1 ht
  by_cases ho : u.occupant = some v.id
  · rw [h.slot_of_occupant hu given.mem (ho.trans given.occupant.symm), Slot.revise, if_pos given.occupant]
    exact .inl rfl
  · rw [Slot.revise, if_neg ho]
    exact .inr hu

theorem Clears.mem_of_isLive {b : Nat} (cleared : m.Clears b m') (ht : t ∈ m'.rob.window)
    (hl : t.isLive = true) : t ∈ m.rob.window := by
  rw [cleared.window] at ht
  obtain ⟨u, hu, rfl⟩ := List.mem_map.1 ht
  rwa [(Slot.cancelAfter_eq_self hl).2]

theorem Clears.mem_of_ready {b : Nat} (cleared : m.Clears b m') (ht : t ∈ m'.rob.window)
    (hr : t.ready = true) : t ∈ m.rob.window := by
  rw [cleared.window] at ht
  obtain ⟨u, hu, rfl⟩ := List.mem_map.1 ht
  unfold Slot.cancelAfter at hr ⊢
  split
  · next ha => simp [ha] at hr
  · exact hu

/-- A cycle of execution makes no slot ready. -/
theorem Runs.mem_of_ready (h : Coherent code m) (run : m.Runs i k st s v m') (ht : t ∈ m'.rob.window)
    (hr : t.ready = true) : t ∈ m.rob.window := by
  rw [run.window] at ht
  obtain ⟨u, hu, rfl⟩ := List.mem_map.1 ht
  by_cases ho : u.occupant = some v.id
  · have hready := run.not_ready
    rw [Slot.revise, if_pos ho, h.slot_of_occupant hu run.mem (ho.trans run.occupant.symm),
      (Slot.ran_keeps _ _ s).1, hready] at hr
    exact absurd hr Bool.false_ne_true
  · rwa [Slot.revise, if_neg ho]

theorem Enters.mem_of_ready {left : Operand} {right : Option Operand}
    (entered : m.Enters v i st left right tag m') (ht : t ∈ m'.rob.window) (hr : t.ready = true) :
    t ∈ m.rob.window := by
  rw [entered.window] at ht
  rcases List.mem_append.1 ht with ht | ht
  · exact ht
  · rw [List.mem_singleton.1 ht] at hr
    exact absurd hr Bool.false_ne_true

theorem Leaves.mem_head {rest : List Slot} (left : m.Leaves s rest m') : s ∈ m.rob.window := by
  rw [left.head]
  exact List.mem_cons_self ..

theorem Leaves.mem {rest : List Slot} (left : m.Leaves s rest m') (ht : t ∈ m'.rob.window) :
    t ∈ m.rob.window := by
  rw [left.head]
  exact List.mem_cons_of_mem s (left.window ▸ ht)

/-- No slot that stays has the version of the one that leaves. -/
theorem Leaves.occupant_ne (h : Coherent code m) {rest : List Slot} (left : m.Leaves s rest m')
    (ht : t ∈ m'.rob.window) : t.occupant ≠ s.occupant := by
  have hnodup := h.order.nodup
  rw [left.head, List.map_cons, List.nodup_cons] at hnodup
  exact fun he => hnodup.1 (List.mem_map.2 ⟨t, left.window ▸ ht, he⟩)

namespace Mans

/-- After a result was given away, whoever is still at work was so before. -/
theorem of_gives (h : Coherent code m) (given : m.Gives i₀ k₀ st₀ s₀ v₀ tag result m')
    (hm : m'.Mans i st k s v) : i ≠ i₀ ∧ v.id ≠ v₀.id ∧
      ∃ before, m.Mans i before k s v ∧ st = before.snoop tag result := by
  have hstation := hm.station
  rw [given.stations] at hstation
  obtain ⟨hne, before, hbefore, hb, rfl⟩ := Staffed.busy_delivered hstation hm.busy
  have hid : (moved .written (s₀.holding m.cycle result).times v₀).id = v₀.id := rfl
  rcases given.toAwaits.before h (g := Slot.holding m.cycle result) hid rfl given.window
      (fun q => by rw [given.fetch]; exact given.toAwaits.current?_modify h _ _ q)
      (by rw [given.fetch]; rfl) given.commits hm.toAwaits with ⟨-, rfl, -⟩ | ⟨ha, hid⟩
  · exact absurd hm.not_ready (by simp [Slot.holding])
  · exact ⟨hne.symm, hid, before, ⟨ha, hbefore, hb, hm.named⟩, rfl⟩

/-- After a squash, whoever is still at work was so before, for a position not behind the branch. -/
theorem of_clears (h : Coherent code m) {b : Nat} (cleared : m.Clears b m') (hm : m'.Mans i st k s v) :
    m.Mans i st k s v ∧ v.id.position ≤ b := by
  have hslot := hm.slot
  rw [cleared.window, List.getElem?_map, Option.map_eq_some_iff] at hslot
  obtain ⟨t, ht, hts⟩ := hslot
  have hl := hm.isLive
  rw [← hts] at hl
  obtain ⟨hafter, hself⟩ := Slot.cancelAfter_eq_self hl
  rw [hself] at hts
  subst hts
  have hle : v.id.position ≤ b := by
    simpa [Slot.isAfter, hm.isLive, hm.occupant] using hafter
  have hcurrent := hm.current
  have hissued := hm.issued
  rw [cleared.fetch, Fetch.current?_renewAfter h.order.orderly, Option.map_eq_some_iff] at hcurrent
  obtain ⟨w, hw, hwv⟩ := hcurrent
  rw [if_neg (by omega)] at hwv
  subst hwv
  exact ⟨⟨⟨ht, hm.pending, hm.occupant, hw, cleared.commits ▸ hm.uncommitted,
    Nat.lt_of_le_of_lt hle cleared.issued⟩, (Staffed.busy_vacated cleared.stations hm.station hm.busy).1,
    hm.busy, hm.named⟩, hle⟩

/-- After a cycle of execution the station has counted down, and any other pair is what it was. -/
theorem of_runs (h : Coherent code m) (run : m.Runs i₀ k₀ st₀ s₀ v₀ m') (hm : m'.Mans i st k s v) :
    i = i₀ ∧ k = k₀ ∧ st = { st₀ with remaining := st₀.remaining - 1 } ∧
        s = s₀.ran m.cycle st₀.remaining ∧
        v = (if st₀.remaining = 1 then moved .executed (s₀.ran m.cycle st₀.remaining).times v₀ else v₀) ∨
      i ≠ i₀ ∧ v.id ≠ v₀.id ∧ m.Mans i st k s v := by
  have hstation := hm.station
  rw [run.stations, Machine.countdown, StationTable.getElem?_stations_modify] at hstation
  let v₁ : Instance :=
    if st₀.remaining = 1 then moved .executed (s₀.ran m.cycle st₀.remaining).times v₀ else v₀
  have hid : v₁.id = v₀.id := by
    show Instance.id (if _ then _ else _) = _
    split <;> rfl
  have hfetch : ∀ q, m'.fetch.current? q = if q = v₀.id.position then some v₁ else m.fetch.current? q := by
    intro q
    rw [run.fetch]
    by_cases hone : st₀.remaining = 1
    · rw [if_pos hone, run.toAwaits.current?_modify h, show v₁ = _ from if_pos hone]
    · rw [if_neg hone, show v₁ = v₀ from if_neg hone]
      split
      · next hq => rw [hq, run.current]
      · rfl
  have hocc := (Slot.ran_sameRole run.isLive m.cycle st₀.remaining).occupant
  -- neither the station nor the slot alone tells which pair it is: their tag joins them
  rcases run.toAwaits.before h hid hocc run.window hfetch run.pc_eq run.commits hm.toAwaits with
    ⟨rfl, rfl, rfl⟩ | ⟨ha, hne⟩
  · have htag := (Slot.ran_sameRole run.isLive m.cycle st₀.remaining).tag
    by_cases hi : i₀ = i
    · subst hi
      rw [if_pos rfl, run.station, Option.map_some, Option.some.injEq] at hstation
      exact .inl ⟨rfl, rfl, hstation.symm, rfl, rfl⟩
    · rw [if_neg hi] at hstation
      exact absurd (h.staffed.unique i₀ i st₀ st run.station hstation run.busy hm.busy
        (by rw [← run.named, ← hm.named, htag])) hi
  · by_cases hi : i₀ = i
    · subst hi
      rw [if_pos rfl, run.station, Option.map_some, Option.some.injEq] at hstation
      have hs := h.slot_of_tag ha.mem run.mem (by rw [hm.named, ← hstation, run.named])
      have ho := ha.occupant
      rw [hs, run.occupant, Option.some.injEq] at ho
      exact absurd ho.symm hne
    · rw [if_neg hi] at hstation
      exact .inr ⟨Ne.symm hi, hne, ha, hstation, hm.busy, hm.named⟩

/-- After an issue there is one pair more. -/
theorem of_enters (h : Coherent code m) {left : Operand} {right : Option Operand}
    (entered : m.Enters v₀ i₀ st₀ left right tag m') (hm : m'.Mans i st k s v) :
    i = i₀ ∧ k = m.rob.window.length ∧ st = st₀.occupied v₀.instr left right tag ∧
        s = .issued v₀ tag m.cycle ∧ v = moved .issued (Slot.issued v₀ tag m.cycle).times v₀ ∨
      i ≠ i₀ ∧ v.id ≠ v₀.id ∧ m.Mans i st k s v := by
  have h' := h.move entered.move
  have hstation := hm.station
  have hslot := hm.slot
  have hcurrent := hm.current
  have hposition : v₀.id.position = m.fetch.pc := h.order.orderly.position_current entered.next
  have hnext : m.fetch.current? v₀.id.position = some v₀ := hposition ▸ entered.next
  have hself : m'.stations.stations[i₀]? = some (st₀.occupied v₀.instr left right tag) := by
    rw [entered.stations, StationTable.getElem?_stations_modify, if_pos rfl, entered.station, Option.map_some]
  rw [entered.fetch] at hcurrent
  change (m.fetch.modify v₀.id _).current? v.id.position = some v at hcurrent
  rw [Fetch.current?_modify h.order.orderly hnext] at hcurrent
  rw [entered.window, List.getElem?_append] at hslot
  split at hslot
  · have hs := List.mem_of_getElem? hslot
    have hne : v.id ≠ v₀.id := by
      intro he
      exact h.order.occupant_ne_next entered.next s hs (he ▸ hm.occupant)
    obtain ⟨w, hw, -, huncommitted, hissued⟩ := h.order.current_of_live hs hm.isLive
    obtain he := Option.some.inj (hm.occupant.symm.trans hw)
    rw [← he] at huncommitted hissued
    rw [if_neg (by omega)] at hcurrent
    have hi : i ≠ i₀ := by
      rintro rfl
      obtain ⟨allocated, register⟩ := entered.register
      refine h.tags.fresh h.count_le register hs ?_
      rw [hm.named, Option.some.inj (hm.station.symm.trans hself)]
      rfl
    rw [entered.stations, StationTable.getElem?_stations_modify, if_neg (Ne.symm hi)] at hstation
    exact .inr ⟨hi, hne, ⟨hslot, hm.pending, hm.occupant, hcurrent, huncommitted, hissued⟩, hstation,
      hm.busy, hm.named⟩
  · obtain ⟨hk, rfl⟩ : k - m.rob.window.length = 0 ∧ s = .issued v₀ tag m.cycle := by
      rw [List.getElem?_singleton] at hslot
      split at hslot
      · next hz => exact ⟨hz, (Option.some.inj hslot).symm⟩
      · simp at hslot
    have he : v.id = v₀.id := (Option.some.inj hm.occupant).symm
    rw [if_pos (by rw [he]), Option.some.injEq] at hcurrent
    have hi : i = i₀ := h'.staffed.unique i i₀ st _ hm.station hself hm.busy rfl hm.named.symm
    subst hi
    exact .inl ⟨rfl, by omega, Option.some.inj (hm.station.symm.trans hself), rfl, hcurrent.symm⟩

/-- Who is at work after the head has left was so before, one place further back. -/
theorem of_leaves {rest : List Slot} (left : m.Leaves s₀ rest m') (hm : m'.Mans i st k s v) :
    m.Mans i st (k + 1) s v := by
  have hslot := hm.slot
  rw [left.window] at hslot
  exact ⟨⟨by rw [left.head, List.getElem?_cons_succ, hslot], hm.pending, hm.occupant,
    left.current _ hm.uncommitted ▸ hm.current, Nat.le_trans left.commits_le hm.uncommitted,
    left.pc ▸ hm.issued⟩, left.stations ▸ hm.station, hm.busy, hm.named⟩

/-- The station holds the instruction of its slot, with the operands that the slots before it give. -/
theorem serves (h : Coherent code m) (hm : m.Mans i st k s v) : s.instr = some v.instr ∧
    Serves (source m.registers (m.rob.window.take k)) v.instr st := by
  obtain ⟨s', instr, hk, hinstr, hserves⟩ :=
    (h.pending_of_busy hm.station hm.busy hm.slot hm.named).2
  obtain rfl := Option.some.inj (hm.slot.symm.trans hk)
  obtain ⟨id, held, ho, hcode, hheld, -⟩ := h.order.holds s hm.mem
  obtain rfl := Option.some.inj (hm.occupant.symm.trans ho)
  rw [h.order.orderly.instr_current hm.current, Option.some.injEq] at hcode
  obtain rfl := Option.some.inj (hinstr.symm.trans hheld)
  exact ⟨hcode ▸ hinstr, hcode ▸ hserves⟩

/-- A station has its operands when the last writers of its registers have their results. -/
theorem isReady_iff (h : Coherent code m) (hm : m.Mans i st k s v) : st.isReady = true ↔
    ∀ r ∈ v.instr.reads, ∀ t, lastWriter (m.rob.window.take k) r = some t → t.ready = true := by
  have hsub := List.take_subset k m.rob.window
  rw [(hm.serves h).2.isReady_iff hm.busy]
  exact forall₂_congr fun r _ => isResolved_source (fun t ht => h.tags.isSome (hsub ht))
    fun t ht => h.results t (hsub ht)

/-- Who waits on a tag waits on an older slot that is itself at work. -/
theorem exists_producer (h : Coherent code m) (hm : m.Mans i st k s v) {tag : Tag}
    (hw : st.awaits tag = true) : ∃ l t, l < k ∧ m.rob.window[l]? = some t ∧ t.isPending = true ∧
      t.tag = some tag ∧ t.arch.isSome = true := by
  have hsub := List.take_subset k m.rob.window
  obtain ⟨r, -, hr⟩ := (hm.serves h).2.exists_of_awaits hw
  obtain ⟨t, hl, htag, hready⟩ := source_eq_pending (fun t ht => h.results t (hsub ht)) hr
  obtain ⟨l, hlt, hget, hlive, harch⟩ := exists_index_of_lastWriter hl
  exact ⟨l, t, hlt, hget, Slot.isPending_eq_true.2 ⟨hlive, hready⟩, htag, by rw [harch]; rfl⟩

end Mans

end Machine

end OutOfOrder
