import OutOfOrder.Machine.Squash
import OutOfOrder.Proofs.Staffing

/-!
The effect of a taken branch, gathered from the loop over the squashed versions: which slots are cancelled,
which stations are freed, and that nothing else is touched but fetch, the aliases and the counters.
-/

set_option autoImplicit false

namespace OutOfOrder

namespace Slot

def cancelled (s : Slot) : Slot := { s with state := .cancelled, ready := false }

/-- Cancels the slot if its version is among those squashed. -/
def cancelIn (ids : List InstanceId) (s : Slot) : Slot :=
  if s.occupant ∈ ids.map some then s.cancelled else s

theorem cancelIn_cons (id : InstanceId) (ids : List InstanceId) (s : Slot) :
    (s.revise id Slot.cancelled).cancelIn ids = s.cancelIn (id :: ids) := by
  unfold revise cancelIn
  by_cases ho : s.occupant = some id
  · simp [ho, Slot.cancelled]
  · simp [ho]

end Slot

/-- The tags of the slots that hold the versions. -/
def tagsOf (ids : List InstanceId) (w : List Slot) : List Tag :=
  (w.filter fun s => decide (s.occupant ∈ ids.map some)).filterMap Slot.tag

theorem mem_tagsOf {ids : List InstanceId} {w : List Slot} {tag : Tag} :
    tag ∈ tagsOf ids w ↔ ∃ s ∈ w, s.occupant ∈ ids.map some ∧ s.tag = some tag := by
  simp only [tagsOf, List.mem_filterMap, List.mem_filter, decide_eq_true_eq, and_assoc]

/-- Distinct busy stations work for distinct tags. -/
def StationTable.Distinct (t : StationTable) : Prop :=
  ∀ (i j : Nat) (st st' : Station), t.stations[i]? = some st → t.stations[j]? = some st' →
    st.busy = true → st'.busy = true → st.dest = st'.dest → i = j

namespace Staffed

theorem vacate_congr {tags tags' : List Tag} (h : ∀ tag, tag ∈ tags ↔ tag ∈ tags') :
    vacate tags = vacate tags' := by
  funext st
  cases hd : st.dest with
  | none => simp [vacate, hd]
  | some tag => simp [vacate, hd, h]

theorem vacate_vacate (tags tags' : List Tag) (st : Station) :
    vacate tags (vacate tags' st) = vacate (tags' ++ tags) st := by
  cases hd : st.dest with
  | none => simp [vacate, hd]
  | some tag =>
    by_cases hb : st.busy = true
    · by_cases ht' : tag ∈ tags'
      · simp [vacate, hd, hb, ht', Station.release, Station.idle]
      · simp [vacate, hd, hb, ht']
    · simp [vacate, hb]

theorem distinct_of_vacate {t t' : StationTable} {tags : List Tag} (h : t.Distinct)
    (hget : ∀ j : Nat, t'.stations[j]? = t.stations[j]?.map (vacate tags)) : t'.Distinct := by
  intro i j st st' hi hj hb hb' hd
  exact h i j st st' (busy_vacated hget hi hb).1 (busy_vacated hget hj hb').1 hb hb' hd

/-- Only one slot holds a version. -/
theorem mem_tagsOf_singleton {w : List Slot} (hn : (w.map Slot.occupant).Nodup) {s : Slot} (hs : s ∈ w)
    {id : InstanceId} (ho : s.occupant = some id) (tag : Tag) :
    tag ∈ tagsOf [id] w ↔ s.tag = some tag := by
  rw [mem_tagsOf]
  constructor
  · rintro ⟨t, ht, hto, htt⟩
    rw [← List.inj_on_of_nodup_map hn ht hs (by simpa [ho] using hto)]
    exact htt
  · intro hst
    exact ⟨s, hs, by simp [ho], hst⟩

/-- To cancel one version after the other frees the stations of all of them. -/
theorem vacate_cons (id : InstanceId) (ids : List InstanceId) (w : List Slot) (st : Station) :
    vacate (tagsOf ids (w.map (Slot.revise id Slot.cancelled))) (vacate (tagsOf [id] w) st) =
      vacate (tagsOf (id :: ids) w) st := by
  rw [vacate_vacate]
  refine congrFun (vacate_congr fun tag => ?_) st
  rw [List.mem_append, mem_tagsOf, mem_tagsOf, mem_tagsOf]
  constructor
  · rintro (⟨s, hs, ho, ht⟩ | ⟨s', hs', ho, ht⟩)
    · exact ⟨s, hs, by simp_all, ht⟩
    · obtain ⟨s, hs, rfl⟩ := List.mem_map.1 hs'
      refine ⟨s, hs, ?_, ?_⟩
      · unfold Slot.revise at ho
        split at ho <;> simp_all [Slot.cancelled]
      · unfold Slot.revise at ht
        split at ht <;> simpa [Slot.cancelled] using ht
  · rintro ⟨s, hs, ho, ht⟩
    by_cases hid : s.occupant = some id
    · exact .inl ⟨s, hs, by simp [hid], ht⟩
    · refine .inr ⟨s.revise id Slot.cancelled, List.mem_map_of_mem hs, ?_, ?_⟩
      · simpa [Slot.revise, hid] using ho
      · simpa [Slot.revise, hid] using ht

end Staffed

namespace Machine

open Staffed

variable {m : Machine}

theorem releaseTag_eq (hd : m.stations.Distinct) (tag : Tag) : ∃ stations : StationTable,
    m.releaseTag tag = { m with stations } ∧
      ∀ j : Nat, stations.stations[j]? = m.stations.stations[j]?.map (vacate [tag]) := by
  unfold releaseTag
  cases hf : m.stations.stationFor tag with
  | none =>
    refine ⟨m.stations, rfl, fun j => ?_⟩
    cases hj : m.stations.stations[j]? with
    | none => rfl
    | some st =>
      have hn := Array.findIdx?_eq_none_iff.1 hf st (Array.mem_of_getElem? hj)
      have hv : vacate [tag] st = st := by
        unfold vacate
        cases hdest : st.dest with
        | none => simp
        | some q => simp_all
      rw [Option.map_some, hv]
  | some i =>
    refine ⟨m.stations.release i, rfl, fun j => ?_⟩
    obtain ⟨hi, hp, -⟩ := Array.findIdx?_eq_some_iff_getElem.1 hf
    rw [Bool.and_eq_true, beq_iff_eq] at hp
    rw [StationTable.release, StationTable.getElem?_stations_modify]
    split
    · next hij =>
      subst hij
      rw [Array.getElem?_eq_getElem hi, Option.map_some, Option.map_some]
      simp [vacate, hp.1, hp.2]
    · next hij =>
      cases hj : m.stations.stations[j]? with
      | none => rfl
      | some st =>
        rw [Option.map_some]
        by_cases hb : st.busy = true
        · rw [vacate_of_ne]
          intro q hq hdest
          rw [List.mem_singleton] at hq
          refine hij (hd i j _ st (Array.getElem?_eq_getElem hi) hj hp.1 hb ?_)
          rw [hp.2, hdest, hq]
        · simp [vacate, hb]

/-- One version is cancelled. -/
theorem cancel_eq (hring : m.rob.Contiguous) (hn : (m.rob.window.map Slot.occupant).Nodup)
    (hd : m.stations.Distinct) (id : InstanceId) :
    ∃ rob stations events, m.cancel id = { m with
        rob, stations, events
        counters := { m.counters with squashed := m.counters.squashed + 1 } } ∧
      rob.Contiguous ∧ rob.window = m.rob.window.map (Slot.revise id Slot.cancelled) ∧
      ∀ j : Nat, stations.stations[j]? =
        m.stations.stations[j]?.map (vacate (tagsOf [id] m.rob.window)) := by
  unfold cancel
  cases hf : m.rob.slotOf id with
  | none =>
    have hnone := hring.find_eq_none hf
    have hw : m.rob.window.map (Slot.revise id Slot.cancelled) = m.rob.window := by
      rw [List.map_congr_left (g := fun s => s), List.map_id']
      intro s hs
      have ho := hnone s hs
      rw [Slot.revise, if_neg (by simpa using ho)]
    have ht : tagsOf [id] m.rob.window = [] := by
      rw [tagsOf, List.filter_eq_nil_iff.2, List.filterMap_nil]
      intro s hs
      simpa using hnone s hs
    refine ⟨m.rob, m.stations, _, rfl, hring, hw.symm, fun j => ?_⟩
    rw [ht]
    cases m.stations.stations[j]? <;> simp [vacate]
  | some i =>
    obtain ⟨k, s, rfl, hk, hs⟩ := hring.find_eq_some hf
    have ho : s.occupant = some id := by simpa using hs
    have hw := hring.window_revise hn hk ho (g := Slot.cancelled) fun _ => rfl
    have hc := (hring.modify (m.rob.place k) (f := Slot.cancelled) fun _ => rfl).1
    have htag : m.rob.slots[m.rob.place k]?.bind (·.tag) = s.tag := by
      rw [hring.getElem?_slots hk]
      rfl
    have hmem := mem_tagsOf_singleton hn (List.mem_of_getElem? hk) ho
    dsimp only
    rw [htag]
    cases hst : s.tag with
    | none =>
      refine ⟨_, m.stations, _, rfl, hc, hw, fun j => ?_⟩
      have he : tagsOf [id] m.rob.window = [] := by
        rw [List.eq_nil_iff_forall_not_mem]
        intro tag htag
        rw [hmem, hst] at htag
        simp at htag
      rw [he]
      cases m.stations.stations[j]? <;> simp [vacate]
    | some tag =>
      let n : Machine :=
        { m with rob := m.rob.modify (m.rob.place k) Slot.cancelled
                 counters := { m.counters with squashed := m.counters.squashed + 1 } }
      obtain ⟨stations, he, hget⟩ := releaseTag_eq (m := n) hd tag
      have hv : vacate [tag] = vacate (tagsOf [id] m.rob.window) := vacate_congr fun q => by
        rw [hmem, hst]
        simp [eq_comm]
      rw [hv] at hget
      have hcancel : (n.releaseTag tag).record
          (.squashed ((m.fetch.get? id).map Instance.instr) id (some (m.rob.place k))) = { m with
            rob := m.rob.modify (m.rob.place k) Slot.cancelled, stations
            counters := { m.counters with squashed := m.counters.squashed + 1 }
            events := m.events.push ⟨m.cycle,
              .squashed ((m.fetch.get? id).map Instance.instr) id (some (m.rob.place k))⟩ } := by
        rw [he]
        rfl
      exact ⟨_, stations, _, hcancel, hc, hw, hget⟩

theorem foldl_cancel (hring : m.rob.Contiguous) (hn : (m.rob.window.map Slot.occupant).Nodup)
    (hd : m.stations.Distinct) (ids : List InstanceId) :
    ∃ rob stations events, ids.foldl cancel m = { m with
        rob, stations, events
        counters := { m.counters with squashed := m.counters.squashed + ids.length } } ∧
      rob.Contiguous ∧ rob.window = m.rob.window.map (Slot.cancelIn ids) ∧
      ∀ j : Nat, stations.stations[j]? =
        m.stations.stations[j]?.map (vacate (tagsOf ids m.rob.window)) := by
  induction ids generalizing m with
  | nil =>
    refine ⟨m.rob, m.stations, _, rfl, hring, ?_, fun j => ?_⟩
    · exact (List.map_id'' (fun s => by simp [Slot.cancelIn]) _).symm
    · cases m.stations.stations[j]? <;> simp [vacate, tagsOf]
  | cons id rest ih =>
    obtain ⟨rob, stations, events, he, hc, hw, hget⟩ := cancel_eq hring hn hd id
    rw [List.foldl_cons, he]
    have hocc : (rob.window.map Slot.occupant) = m.rob.window.map Slot.occupant := by
      rw [hw, List.map_map]
      refine List.map_congr_left fun s _ => ?_
      simp only [Function.comp_apply, Slot.revise]
      split <;> rfl
    let n : Machine := { m with
      rob, stations, events, counters := { m.counters with squashed := m.counters.squashed + 1 } }
    obtain ⟨rob', stations', events', he', hc', hw', hget'⟩ :=
      ih (m := n) hc (by rw [hocc]; exact hn) (distinct_of_vacate hd hget)
    refine ⟨rob', stations', events', ?_, hc', ?_, fun j => ?_⟩
    · rw [he', List.length_cons, Nat.add_comm rest.length 1, ← Nat.add_assoc]
    · rw [hw']
      show rob.window.map _ = _
      rw [hw, List.map_map]
      exact List.map_congr_left fun s _ => s.cancelIn_cons id rest
    · rw [hget']
      show (stations.stations[j]?).map _ = _
      rw [hget, Option.map_map]
      congr 1
      funext st
      show vacate (tagsOf rest rob.window) (vacate (tagsOf [id] m.rob.window) st) = _
      rw [hw, vacate_cons]

theorem foldl_realias (m : Machine) (rs : List Register) :
    ∃ aliases, rs.foldl realias m = { m with aliases } := by
  induction rs generalizing m with
  | nil => exact ⟨m.aliases, rfl⟩
  | cons r rest ih =>
    have hr : ∃ aliases, m.realias r = { m with aliases } := by
      unfold realias
      split
      · exact ⟨_, rfl⟩
      · exact ⟨_, rfl⟩
    obtain ⟨aliases, he⟩ := hr
    obtain ⟨aliases', he'⟩ := ih (m.realias r)
    rw [List.foldl_cons, he', he]
    exact ⟨aliases', rfl⟩

theorem squashYounger_eq (hring : m.rob.Contiguous) (hn : (m.rob.window.map Slot.occupant).Nodup)
    (hd : m.stations.Distinct) (b : Nat) :
    ∃ rob stations events aliases, m.squashYounger b = { m with
        rob, stations, events, aliases
        fetch := m.fetch.renewAfter b
        counters := { m.counters with
          squashed := m.counters.squashed + (m.fetch.issuedAfter b).length } } ∧
      rob.Contiguous ∧ rob.window = m.rob.window.map (Slot.cancelIn (m.fetch.issuedAfter b)) ∧
      ∀ j : Nat, stations.stations[j]? =
        m.stations.stations[j]?.map (vacate (tagsOf (m.fetch.issuedAfter b) m.rob.window)) := by
  let n : Machine := { m with fetch := m.fetch.renewAfter b }
  obtain ⟨rob, stations, events, he, hc, hw, hget⟩ :=
    foldl_cancel (m := n) hring hn hd (m.fetch.issuedAfter b)
  obtain ⟨aliases, ha⟩ :=
    foldl_realias ((m.fetch.issuedAfter b).foldl cancel n) ((m.fetch.issuedAfter b).filterMap m.renamedBy)
  refine ⟨rob, stations, events, aliases, ?_, hc, hw, hget⟩
  show ((m.fetch.issuedAfter b).filterMap m.renamedBy).foldl realias
    ((m.fetch.issuedAfter b).foldl cancel n) = _
  rw [ha, he]

end Machine

end OutOfOrder
