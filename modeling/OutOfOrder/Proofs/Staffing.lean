import OutOfOrder.Proofs.Dataflow

/-!
The stations against the window. Every slot that waits for its result has one busy station, which stands for
its tag and holds its operation; no other station is busy.
-/

set_option autoImplicit false

namespace OutOfOrder

namespace Slot

/-- In flight without a result. -/
def isPending (s : Slot) : Bool := s.isLive && !s.ready

theorem isPending_eq_true {s : Slot} : s.isPending = true ↔ s.isLive = true ∧ s.ready = false := by
  simp [isPending]

theorem SameRole.isPending {s s' : Slot} (h : s.SameRole s') (hr : s'.ready = s.ready) :
    s'.isPending = s.isPending := by
  simp [Slot.isPending, h.isLive, hr]

end Slot

/-- Whoever still waits is not the slot that the result is for. -/
theorem Arrives.isPending {w : List Slot} {tag : Tag} {result : Word} {u : Slot → Slot}
    (h : Arrives w tag result u) {s : Slot} (hs : s ∈ w) (hp : (u s).isPending = true) :
    s.isPending = true ∧ s.tag ≠ some tag := by
  have hready := (Slot.isPending_eq_true.1 hp).2
  have ht : s.tag ≠ some tag := by
    intro ht
    rw [(h.here s hs ht).2.1] at hready
    simp at hready
  exact ⟨((h.sameRole s hs).isPending (h.elsewhere s hs ht).1).symm.trans hp, ht⟩

/-- No station is busy at first. -/
theorem StationTable.busy_ofCounts {counts : FunctionalUnit → Nat} {st : Station}
    (h : st ∈ (ofCounts counts).stations) : st.busy ≠ true := by
  simp only [ofCounts, List.mem_toArray, List.mem_flatMap, List.mem_map] at h
  obtain ⟨unit, -, n, -, rfl⟩ := h
  simp [Station.idle]

structure Staffed (regs : RegisterFile) (w : List Slot) (t : StationTable) : Prop where
  manned : ∀ s ∈ w, s.isPending = true →
    ∃ (i : Nat) (st : Station), t.stations[i]? = some st ∧ st.busy = true ∧ st.dest = s.tag
  serves : ∀ (i : Nat) (st : Station), t.stations[i]? = some st → st.busy = true →
    ∃ k s, w[k]? = some s ∧ s.isPending = true ∧ s.tag = st.dest ∧ Fed regs w k st
  unique : ∀ (i j : Nat) (st st' : Station), t.stations[i]? = some st → t.stations[j]? = some st' →
    st.busy = true → st'.busy = true → st.dest = st'.dest → i = j
  /-- Only a station with all its operands has counted down. -/
  finished : ∀ (i : Nat) (st : Station), t.stations[i]? = some st → st.busy = true →
    st.remaining = 0 → st.isReady = true

namespace Staffed

variable {regs : RegisterFile} {w : List Slot} {t t' : StationTable}

/-- No station is busy while no slot waits. -/
theorem idle {counts : FunctionalUnit → Nat} (regs : RegisterFile) :
    Staffed regs [] (.ofCounts counts) := by
  have hidle : ∀ (i : Nat) (st : Station),
      (StationTable.ofCounts counts).stations[i]? = some st → st.busy ≠ true := fun i st hst =>
    StationTable.busy_ofCounts (Array.mem_of_getElem? hst)
  exact
    { manned := by simp
      serves := fun i st hst hb => absurd hb (hidle i st hst)
      unique := fun i _ st _ hst _ hb => absurd hb (hidle i st hst)
      finished := fun i st hst hb => absurd hb (hidle i st hst) }

/-- Progress of the slots that no station notices. -/
theorem map (h : Staffed regs w t) {u : Slot → Slot} (hu : ∀ s ∈ w, s.SameRole (u s))
    (hr : ∀ s ∈ w, (u s).ready = s.ready ∧ (u s).result = s.result) : Staffed regs (w.map u) t where
  manned := by
    intro s' hs' hp
    obtain ⟨s, hs, rfl⟩ := List.mem_map.1 hs'
    rw [(hu s hs).isPending (hr s hs).1] at hp
    rw [(hu s hs).tag]
    exact h.manned s hs hp
  serves := by
    intro i st hst hb
    obtain ⟨k, s, hk, hp, ht, hf⟩ := h.serves i st hst hb
    have hs := List.mem_of_getElem? hk
    refine ⟨k, u s, by simp [hk], ?_, ?_, hf.map hu hr⟩
    · rw [(hu s hs).isPending (hr s hs).1, hp]
    · rw [(hu s hs).tag, ht]
  unique := h.unique
  finished := h.finished

theorem countdown (h : Staffed regs w t) {i : Nat} {st : Station} (hi : t.stations[i]? = some st)
    (hready : st.isReady = true) :
    Staffed regs w (t.modify i fun s => { s with remaining := s.remaining - 1 }) := by
  have hget : ∀ (j : Nat) (st' : Station),
      (t.modify i fun s => { s with remaining := s.remaining - 1 }).stations[j]? = some st' →
      ∃ n st₀, t.stations[j]? = some st₀ ∧ st' = { st₀ with remaining := n } ∧
        (n = 0 → st₀.busy = true → st₀.isReady = true) := by
    intro j st' hj
    rw [StationTable.getElem?_stations_modify] at hj
    split at hj
    · next hij =>
      subst hij
      rw [hi, Option.map_some] at hj
      exact ⟨st.remaining - 1, st, hi, (Option.some.inj hj).symm, fun _ _ => hready⟩
    · exact ⟨st'.remaining, st', hj, rfl, fun hn hb => h.finished j st' hj hb hn⟩
  constructor
  · intro s hs hp
    obtain ⟨j, st₀, hj, hb, hd⟩ := h.manned s hs hp
    by_cases hij : i = j
    · subst hij
      refine ⟨i, { st₀ with remaining := st₀.remaining - 1 }, ?_, hb, hd⟩
      rw [StationTable.getElem?_stations_modify, if_pos rfl, hj]
      rfl
    · exact ⟨j, st₀, by rw [StationTable.getElem?_stations_modify, if_neg hij, hj], hb, hd⟩
  · intro j st' hj hb
    obtain ⟨n, st₀, h₀, rfl, -⟩ := hget j st' hj
    obtain ⟨k, s, hk, hp, ht, hf⟩ := h.serves j st₀ h₀ hb
    exact ⟨k, s, hk, hp, ht, hf.of_eq rfl rfl rfl rfl rfl⟩
  · intro j l st' st'' hj hl hb hb' hd
    obtain ⟨_, st₀, h₀, rfl, -⟩ := hget j st' hj
    obtain ⟨_, st₁, h₁, rfl, -⟩ := hget l st'' hl
    exact h.unique j l st₀ st₁ h₀ h₁ hb hb' hd
  · intro j st' hj hb hz
    obtain ⟨n, st₀, -, rfl, hr⟩ := hget j st' hj
    exact hr hz hb

theorem isReady_snoop {st : Station} (h : st.isReady = true) (tag : Tag) (value : Word) :
    st.snoop tag value = st := by
  have hresolved : ∀ o : Operand, o.isResolved = true → o.snoop tag value = o := by
    intro o ho
    cases o with
    | resolved => rfl
    | pending => simp [Operand.isResolved, Operand.value?] at ho
  obtain ⟨unit, number, busy, opcode, left, right, imm, dest, remaining⟩ := st
  cases left <;> cases right <;> simp_all [Station.isReady, Station.snoop]

theorem getElem?_delivered (t : StationTable) (tag : Tag) (result : Word) (i j : Nat) :
    ((t.broadcast tag result).release i).stations[j]? =
      if i = j then t.stations[j]?.map fun s => (if s.busy then s.snoop tag result else s).release
      else t.stations[j]?.map fun s => if s.busy then s.snoop tag result else s := by
  rw [StationTable.release, StationTable.getElem?_stations_modify]
  simp only [StationTable.broadcast, Array.getElem?_map, Option.map_map]
  rfl

/-- A station that is busy after a delivery was so before, and the delivery was not its own. -/
theorem busy_delivered {i j : Nat} {tag : Tag} {result : Word} {st' : Station}
    (hj : ((t.broadcast tag result).release i).stations[j]? = some st') (hb : st'.busy = true) :
    i ≠ j ∧ ∃ st, t.stations[j]? = some st ∧ st.busy = true ∧ st' = st.snoop tag result := by
  rw [getElem?_delivered] at hj
  split at hj
  · obtain ⟨st, -, rfl⟩ := Option.map_eq_some_iff.1 hj
    simp [Station.release, Station.idle] at hb
  · next hij =>
    obtain ⟨st, hst, rfl⟩ := Option.map_eq_some_iff.1 hj
    cases h : st.busy with
    | false => simp [h] at hb
    | true => exact ⟨hij, st, hst, h, by simp⟩

/-- A result arrives: its station is done, every other one takes the result off the bus. -/
theorem deliver (h : Staffed regs w t) {i : Nat} {st : Station} (hi : t.stations[i]? = some st)
    (hbusy : st.busy = true) {tag : Tag} (hdest : st.dest = some tag) {result : Word}
    {u : Slot → Slot} (ha : Arrives w tag result u) :
    Staffed regs (w.map u) ((t.broadcast tag result).release i) := by
  constructor
  · intro s' hs' hp
    obtain ⟨s, hs, rfl⟩ := List.mem_map.1 hs'
    have hne : s.tag ≠ some tag := by
      intro he
      rw [Slot.isPending, (ha.here s hs he).2.1] at hp
      simp at hp
    rw [(ha.sameRole s hs).isPending (ha.elsewhere s hs hne).1] at hp
    obtain ⟨j, st₀, hj, hb, hd⟩ := h.manned s hs hp
    have hij : i ≠ j := by
      rintro rfl
      obtain rfl := Option.some.inj (hi.symm.trans hj)
      exact hne (hd.symm.trans hdest)
    refine ⟨j, st₀.snoop tag result, ?_, hb, ?_⟩
    · simp [getElem?_delivered, hij, hj, hb]
    · rw [(ha.sameRole s hs).tag]
      exact hd
  · intro j st' hj hb
    obtain ⟨hij, st₀, h₀, hb₀, rfl⟩ := busy_delivered hj hb
    obtain ⟨k, s, hk, hp, hst, hf⟩ := h.serves j st₀ h₀ hb₀
    have hs := List.mem_of_getElem? hk
    have hne : s.tag ≠ some tag := by
      intro he
      exact hij (h.unique i j st st₀ hi h₀ hbusy hb₀ (by rw [hdest, ← hst, he]))
    refine ⟨k, u s, by simp [hk], ?_, ?_, hf.deliver ha⟩
    · rw [(ha.sameRole s hs).isPending (ha.elsewhere s hs hne).1, hp]
    · rw [(ha.sameRole s hs).tag, hst]
      rfl
  · intro j l st' st'' hj hl hb hb' hd
    obtain ⟨-, st₀, h₀, hb₀, rfl⟩ := busy_delivered hj hb
    obtain ⟨-, st₁, h₁, hb₁, rfl⟩ := busy_delivered hl hb'
    exact h.unique j l st₀ st₁ h₀ h₁ hb₀ hb₁ hd
  · intro j st' hj hb hz
    obtain ⟨-, st₀, h₀, hb₀, rfl⟩ := busy_delivered hj hb
    have hr := h.finished j st₀ h₀ hb₀ hz
    rw [isReady_snoop hr, hr]

/-- An instruction is issued to an idle station. -/
theorem issue (h : Staffed regs w t) {i : Nat} {st : Station} {f : Station → Station}
    (hi : t.stations[i]? = some st) (hidle : st.busy = false) {s : Slot} (hp : s.isPending = true)
    (hfresh : ∀ x ∈ w, x.tag ≠ s.tag) (hbusy : (f st).busy = true) (hdest : (f st).dest = s.tag)
    (hleft : (f st).remaining ≠ 0) {instr : Instruction} (hinstr : s.instr = some instr)
    (hserves : Serves (source regs w) instr (f st)) : Staffed regs (w ++ [s]) (t.modify i f) := by
  have hget : ∀ (j : Nat) (st' : Station), (t.modify i f).stations[j]? = some st' →
      st'.busy = true → i = j ∧ st' = f st ∨ i ≠ j ∧ t.stations[j]? = some st' := by
    intro j st' hj hb
    rw [StationTable.getElem?_stations_modify] at hj
    split at hj
    · next hij =>
      subst hij
      rw [hi, Option.map_some] at hj
      exact .inl ⟨rfl, (Option.some.inj hj).symm⟩
    · next hij => exact .inr ⟨hij, hj⟩
  have hself : (t.modify i f).stations[i]? = some (f st) := by
    rw [StationTable.getElem?_stations_modify, if_pos rfl, hi, Option.map_some]
  have hold : ∀ (j : Nat) (st' : Station), t.stations[j]? = some st' → st'.busy = true →
      (t.modify i f).stations[j]? = some st' := by
    intro j st' hj hb
    rw [StationTable.getElem?_stations_modify, if_neg, hj]
    rintro rfl
    obtain rfl := Option.some.inj (hi.symm.trans hj)
    rw [hidle] at hb
    simp at hb
  have hclash : ∀ (j : Nat) (st' : Station), t.stations[j]? = some st' → st'.busy = true →
      st'.dest ≠ s.tag := by
    intro j st' hj hb hd
    obtain ⟨k, x, hk, -, hx, -⟩ := h.serves j st' hj hb
    exact hfresh x (List.mem_of_getElem? hk) (hx.trans hd)
  constructor
  · intro x hx hxp
    rcases List.mem_append.1 hx with hx | hx
    · obtain ⟨j, st', hj, hb, hd⟩ := h.manned x hx hxp
      exact ⟨j, st', hold j st' hj hb, hb, hd⟩
    · rw [List.mem_singleton.1 hx]
      exact ⟨i, f st, hself, hbusy, hdest⟩
  · intro j st' hj hb
    rcases hget j st' hj hb with ⟨rfl, rfl⟩ | ⟨-, hj⟩
    · refine ⟨w.length, s, by simp, hp, hdest.symm, s, instr, by simp, hinstr, ?_⟩
      rw [List.take_left]
      exact hserves
    · obtain ⟨k, x, hk, hxp, hx, hf⟩ := h.serves j st' hj hb
      have hlt := (List.getElem?_eq_some_iff.1 hk).1
      exact ⟨k, x, by rw [List.getElem?_append_left hlt, hk], hxp, hx, hf.append s⟩
  · intro j l st' st'' hj hl hb hb' hd
    rcases hget j st' hj hb with ⟨rfl, rfl⟩ | ⟨-, hj⟩
    · rcases hget l st'' hl hb' with ⟨rfl, rfl⟩ | ⟨-, hl⟩
      · rfl
      · exact absurd (hd.symm.trans hdest) (hclash l st'' hl hb')
    · rcases hget l st'' hl hb' with ⟨rfl, rfl⟩ | ⟨-, hl⟩
      · exact absurd (hd.trans hdest) (hclash j st' hj hb)
      · exact h.unique j l st' st'' hj hl hb hb' hd
  · intro j st' hj hb hz
    rcases hget j st' hj hb with ⟨rfl, rfl⟩ | ⟨-, hj⟩
    · exact absurd hz hleft
    · exact h.finished j st' hj hb hz

/-- The head leaves; its station has been idle since its result was written. -/
theorem tail {regs' : RegisterFile} {s : Slot} {rest : List Slot} (h : Staffed regs (s :: rest) t)
    (hp : s.isPending = false)
    (hfed : ∀ k st, Fed regs (s :: rest) (k + 1) st → Fed regs' rest k st) : Staffed regs' rest t where
  manned := fun x hx => h.manned x (List.mem_cons_of_mem s hx)
  serves := by
    intro i st hi hb
    obtain ⟨k, x, hk, hxp, hx, hf⟩ := h.serves i st hi hb
    cases k with
    | zero =>
      rw [List.getElem?_cons_zero] at hk
      obtain rfl := Option.some.inj hk
      rw [hp] at hxp
      simp at hxp
    | succ k => exact ⟨k, x, by simpa using hk, hxp, hx, hfed k st hf⟩
  unique := h.unique
  finished := h.finished

/-! ### A taken branch -/

section Squash

/-- Frees the station if it works for one of the tags. -/
def vacate (tags : List Tag) (st : Station) : Station :=
  if st.busy && st.dest.any (tags.contains ·) then st.release else st

theorem busy_vacate {tags : List Tag} {st : Station} (h : (vacate tags st).busy = true) :
    vacate tags st = st ∧ st.busy = true ∧ ∀ tag ∈ tags, st.dest ≠ some tag := by
  unfold vacate at h ⊢
  split at h
  · simp [Station.release, Station.idle] at h
  · next hv =>
    refine ⟨if_neg hv, h, ?_⟩
    rintro tag ht hd
    exact hv (by simp [h, hd, ht])

theorem vacate_of_ne {tags : List Tag} {st : Station} (h : ∀ tag ∈ tags, st.dest ≠ some tag) :
    vacate tags st = st := by
  cases hd : st.dest with
  | none => simp [vacate, hd]
  | some tag =>
    have hm : tag ∉ tags := fun hm => h tag hm hd
    simp [vacate, hd, hm]

/-- A station that is still busy was not to be freed. -/
theorem busy_vacated {tags : List Tag}
    (hget : ∀ j : Nat, t'.stations[j]? = t.stations[j]?.map (vacate tags)) {j : Nat} {st : Station}
    (hj : t'.stations[j]? = some st) (hb : st.busy = true) :
    t.stations[j]? = some st ∧ ∀ tag ∈ tags, st.dest ≠ some tag := by
  rw [hget] at hj
  obtain ⟨st₀, h₀, rfl⟩ := Option.map_eq_some_iff.1 hj
  obtain ⟨he, -, hd⟩ := busy_vacate hb
  rw [he]
  exact ⟨h₀, hd⟩

/-- Of the table the stations of the cancelled slots are freed. -/
theorem squash (h : Staffed regs w t) {b : Nat} {tags : List Tag}
    (htags : ∀ tag, tag ∈ tags ↔ ∃ s ∈ w, s.isAfter b = true ∧ s.tag = some tag)
    (hget : ∀ j : Nat, t'.stations[j]? = t.stations[j]?.map (vacate tags))
    (ht : ∀ s ∈ w, s.tag.isSome = true) (hnodup : (w.map Slot.tag).Nodup)
    (htake : ∀ (k : Nat) (s : Slot), w[k]? = some s → s.isLive = true → s.isAfter b = false →
      (w.map (Slot.cancelAfter b)).take (k + 1) = w.take (k + 1)) :
    Staffed regs (w.map (Slot.cancelAfter b)) t' := by
  constructor
  · intro s' hs' hp
    obtain ⟨s, hs, rfl⟩ := List.mem_map.1 hs'
    by_cases ha : s.isAfter b = true
    · simp [Slot.cancelAfter, ha, Slot.isPending, Slot.isLive] at hp
    · have hc : s.cancelAfter b = s := if_neg ha
      rw [hc] at hp ⊢
      obtain ⟨j, st, hj, hb, hd⟩ := h.manned s hs hp
      refine ⟨j, st, ?_, hb, hd⟩
      rw [hget, hj, Option.map_some, vacate_of_ne]
      intro tag hm he
      obtain ⟨x, hx, hxa, hxt⟩ := (htags tag).1 hm
      rw [List.inj_on_of_nodup_map hnodup hx hs (by rw [hxt, ← hd, he])] at hxa
      exact ha hxa
  · intro j st hj hb
    obtain ⟨h₀, hd⟩ := busy_vacated hget hj hb
    obtain ⟨k, s, hk, hp, hst, hf⟩ := h.serves j st h₀ hb
    have hs := List.mem_of_getElem? hk
    have ha : s.isAfter b = false := by
      by_contra ha
      rw [Bool.not_eq_false] at ha
      obtain ⟨tag, htag⟩ := Option.isSome_iff_exists.1 (ht s hs)
      exact hd tag ((htags tag).2 ⟨s, hs, ha, htag⟩) (hst.symm.trans htag)
    have hc : s.cancelAfter b = s := if_neg (by simp [ha])
    have hw := htake k s hk (Slot.isPending_eq_true.1 hp).1 ha
    exact ⟨k, s, by simp [hk, hc], hp, hst, hf.of_take_eq hw⟩
  · intro j l st st' hj hl hb hb' hd
    exact h.unique j l st st' (busy_vacated hget hj hb).1 (busy_vacated hget hl hb').1 hb hb' hd
  · intro j st hj hb hz
    exact h.finished j st (busy_vacated hget hj hb).1 hb hz

end Squash

end Staffed

end OutOfOrder
