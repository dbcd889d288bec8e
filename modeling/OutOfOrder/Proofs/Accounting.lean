import OutOfOrder.Proofs.Conservation
import OutOfOrder.Proofs.Timekeeping
import OutOfOrder.Proofs.Timesheet

/-!
The counters of the machine as sums over what can be seen in it: the versions with their times, the slots in flight
and the cursor.
-/

set_option autoImplicit false

namespace OutOfOrder

open Machine

/-! ### Counting versions -/

/-- A change of what lies behind a place adds up over the elements that it touches. -/
theorem sum_mapIdx_from {α : Type} (size : α → Nat) (p : α → Bool) (g : α → α) (d : Nat) (xs : List α)
    (hg : ∀ x ∈ xs, p x = true → size (g x) = size x + d) (b : Nat) :
    ((xs.mapIdx fun i x => if b ≤ i && p x then g x else x).map size).sum =
      (xs.map size).sum + d * ((xs.drop b).filter p).length := by
  induction xs generalizing b with
  | nil => simp
  | cons x xs ih =>
    have hrest := fun y hy => hg y (List.mem_cons_of_mem x hy)
    rw [List.mapIdx_cons]
    cases b with
    | zero =>
      have htail := ih hrest 0
      simp only [Nat.zero_le, decide_true, Bool.true_and, List.drop_zero] at htail ⊢
      cases hp : p x with
      | true =>
        have hx := hg x (List.mem_cons_self ..) hp
        simp only [hp, if_true, List.map_cons, List.sum_cons, hx, htail, List.filter_cons, List.length_cons,
          Nat.mul_succ]
        omega
      | false =>
        simp only [hp, Bool.false_eq_true, if_false, List.map_cons, List.sum_cons, htail, List.filter_cons]
        omega
    | succ b =>
      have hhead : (decide (b + 1 ≤ 0) && p x) = false := by simp
      simp only [Nat.add_le_add_iff_right, List.drop_succ_cons, hhead, Bool.false_eq_true, if_false,
        List.map_cons, List.sum_cons, ih hrest b]
      omega

namespace Fetch

variable {code : List Instruction} {f : Fetch} {p : Nat} {v : Instance}

/-- Position after position, and of each the oldest first. -/
def versions (f : Fetch) : List Instance := f.histories.toList.flatMap History.versions

/-- How many versions were replaced. -/
def replaced (f : Fetch) : Nat := (f.histories.toList.map fun h => h.past.length).sum

theorem histories_modify (hf : f.Orderly code) (hv : f.current? p = some v) (g : Instance → Instance) :
    ∃ before h after, f.histories.toList = before ++ h :: after ∧ h.current = v ∧
      (f.modify v.id g).histories.toList = before ++ { h with current := g v } :: after := by
  obtain ⟨h, hh, rfl⟩ := exists_history hv
  obtain ⟨i, -, hn⟩ := hf.numbered p h hh
  obtain ⟨-, hposition, hversion, -⟩ := hn.current
  rw [← Array.getElem?_toList] at hh
  obtain ⟨hlt, hget⟩ := List.getElem?_eq_some_iff.1 hh
  refine ⟨f.histories.toList.take p, h, f.histories.toList.drop (p + 1), ?_, rfl, ?_⟩
  · rw [← hget, List.getElem_cons_drop, List.take_append_drop]
  · rw [modify, Array.toList_modify, Instance.id, hposition, hversion, List.modify_eq_take_cons_drop hlt, hget,
      History.modify, if_pos rfl]

theorem countP_modify (hf : f.Orderly code) (hv : f.current? p = some v) (g : Instance → Instance)
    (q : Instance → Bool) : (f.modify v.id g).versions.countP q + (if q v then 1 else 0) =
      f.versions.countP q + if q (g v) then 1 else 0 := by
  obtain ⟨before, h, after, hbefore, rfl, hafter⟩ := histories_modify hf hv g
  rw [versions, versions, hbefore, hafter]
  simp only [List.flatMap_append, List.flatMap_cons, List.countP_append, History.versions, List.countP_singleton]
  omega

theorem replaced_modify (hf : f.Orderly code) (hv : f.current? p = some v) (g : Instance → Instance) :
    (f.modify v.id g).replaced = f.replaced := by
  obtain ⟨before, h, after, hbefore, rfl, hafter⟩ := histories_modify hf hv g
  simp [replaced, hbefore, hafter]

theorem histories_renewAfter (f : Fetch) (b : Nat) : (f.renewAfter b).histories.toList =
    f.histories.toList.mapIdx fun i h => if b + 1 ≤ i && h.inProgress then h.renew else h := by
  rw [renewAfter, Array.toList_mapIdx]
  rfl

theorem replaced_renewAfter (f : Fetch) (b : Nat) :
    (f.renewAfter b).replaced = f.replaced + (f.issuedAfter b).length := by
  have hsum := sum_mapIdx_from (fun h => h.past.length) History.inProgress History.renew 1
    f.histories.toList (fun h _ _ => by simp [History.renew]) (b + 1)
  rw [replaced, histories_renewAfter, hsum, Nat.one_mul, issuedAfter, List.length_map]
  rfl

/-- What depends on the times alone counts the same after a squash, and the new versions do not count. -/
theorem countP_renewAfter (f : Fetch) (b : Nat) {q : Instance → Bool}
    (hstage : ∀ v : Instance, q { v with stage := .squashed } = q v)
    (hfresh : ∀ i p k, q (.fresh i p k) = false) : (f.renewAfter b).versions.countP q = f.versions.countP q := by
  have hsum := sum_mapIdx_from (fun h => h.versions.countP q) History.inProgress History.renew 0
    f.histories.toList (fun h _ _ => ?_) (b + 1)
  · rw [Nat.zero_mul, Nat.add_zero] at hsum
    rw [versions, List.countP_flatMap, histories_renewAfter]
    rw [versions, List.countP_flatMap]
    exact hsum
  · rw [History.versions_renew, History.versions, List.countP_append, List.countP_append, List.countP_cons,
      List.countP_singleton, List.countP_singleton, hstage, hfresh]
    simp

theorem replaced_eq (hf : f.Orderly code) :
    f.replaced = (f.histories.toList.map fun h => h.versions.length - 1).sum ∧
      f.replaced = f.versions.countP fun v => v.stage == .squashed := by
  constructor
  · simp [replaced, History.length_versions]
  · rw [versions, List.countP_flatMap, replaced]
    congr 1
    refine List.map_congr_left fun h hh => ?_
    obtain ⟨p, hp⟩ := List.mem_iff_getElem?.1 hh
    rw [Array.getElem?_toList] at hp
    obtain ⟨i, -, hn⟩ := hf.numbered p h hp
    have hpast : h.past.countP (fun v => v.stage == .squashed) = h.past.length := by
      rw [List.countP_eq_length]
      intro v hv
      obtain ⟨k, hk⟩ := List.mem_iff_getElem?.1 hv
      rw [(hn.past k v hk).2.2.2]
      rfl
    have hcurrent : (h.current.stage == .squashed) = false := by simpa using hn.current.2.2.2
    simp [History.versions, hpast, hcurrent]

end Fetch

/-! ### What the counters stand for -/

/-- The counters of what was done to versions, and the cursor. -/
structure Accounted (m : Machine) : Prop where
  issued : m.counters.issued = m.fetch.versions.countP fun v => v.times.issue.isSome
  executed : m.counters.executed = m.fetch.versions.countP fun v => v.times.executeDone.isSome
  written : m.counters.written = m.fetch.versions.countP fun v => v.times.write.isSome
  squashed : m.counters.squashed = m.fetch.replaced
  cursor : m.counters.issued = m.fetch.pc + m.counters.squashed

namespace Accounted

variable {code : List Instruction} {m m' : Machine} {i k : Nat} {st : Station} {s : Slot} {v : Instance}
  {tag : Tag} {result : Word}

theorem start (hf : m.fetch = .ofCode code) (hc : m.counters = .zero) : Accounted m := by
  have hnone : ∀ q : Instance → Bool, (∀ i p k, q (.fresh i p k) = false) →
      (Fetch.ofCode code).versions.countP q = 0 := by
    intro q hq
    rw [List.countP_eq_zero]
    intro v hv
    simp only [Fetch.versions, Fetch.ofCode, List.mem_flatMap, List.mem_map] at hv
    obtain ⟨h, ⟨⟨i, p⟩, -, rfl⟩, hv⟩ := hv
    simp only [History.versions, History.fresh, List.nil_append, List.mem_singleton] at hv
    simp [hv, hq]
  have hreplaced : (Fetch.ofCode code).replaced = 0 := by
    simp [Fetch.replaced, Fetch.ofCode, History.fresh, Function.comp_def]
  constructor
  · rw [hf, hc, hnone _ fun _ _ _ => rfl]
    rfl
  · rw [hf, hc, hnone _ fun _ _ _ => rfl]
    rfl
  · rw [hf, hc, hnone _ fun _ _ _ => rfl]
    rfl
  · rw [hf, hc, hreplaced]
    rfl
  · rw [hf, hc]
    rfl

theorem of_same (h : Accounted m) (hs : SameCounts m m') : Accounted m' := by
  obtain ⟨hi, hx, hw, hq, hp⟩ := h
  constructor <;> rw [hs.fetch, hs.counters] <;> assumption

/-- One version moves on: each counter goes up with the time that it stands for. -/
theorem moved (h : Accounted m) (hcoh : Coherent code m) (current : m.fetch.current? v.id.position = some v)
    {g : Instance → Instance} (hhist : m'.fetch.histories = (m.fetch.modify v.id g).histories)
    (hissued : m'.counters.issued + (if v.times.issue.isSome then 1 else 0) =
      m.counters.issued + if (g v).times.issue.isSome then 1 else 0)
    (hexecuted : m'.counters.executed + (if v.times.executeDone.isSome then 1 else 0) =
      m.counters.executed + if (g v).times.executeDone.isSome then 1 else 0)
    (hwritten : m'.counters.written + (if v.times.write.isSome then 1 else 0) =
      m.counters.written + if (g v).times.write.isSome then 1 else 0)
    (hsquashed : m'.counters.squashed = m.counters.squashed)
    (hcursor : m'.counters.issued = m'.fetch.pc + m'.counters.squashed) : Accounted m' := by
  have hcount : ∀ q : Instance → Bool, m'.fetch.versions.countP q + (if q v then 1 else 0) =
      m.fetch.versions.countP q + if q (g v) then 1 else 0 := fun q => by
    rw [← Fetch.countP_modify hcoh.order.orderly current g q, Fetch.versions, hhist, Fetch.versions]
  have hi := hcount fun v => v.times.issue.isSome
  have hx := hcount fun v => v.times.executeDone.isSome
  have hw := hcount fun v => v.times.write.isSome
  rw [← h.issued] at hi
  rw [← h.executed] at hx
  rw [← h.written] at hw
  refine ⟨by omega, by omega, by omega, ?_, hcursor⟩
  rw [hsquashed, h.squashed, ← Fetch.replaced_modify hcoh.order.orderly current g, Fetch.replaced, Fetch.replaced,
    hhist]

theorem gives (h : Accounted m) (hd : Documented code m) (given : m.Gives i k st s v tag result m') :
    Accounted m' := by
  obtain ⟨c, x, d, hv, hs⟩ := hd.times_given given
  rw [(hd.records given.current).1] at hv hs
  have hpc : m'.fetch.pc = m.fetch.pc := by rw [given.fetch]; rfl
  refine h.moved hd.coherent given.current (by rw [given.fetch]) ?_ ?_ ?_ (by rw [given.counters]) ?_
  · simp [given.counters, Slot.holding, hs, hv]
  · simp [given.counters, Slot.holding, hs, hv]
  · simp [given.counters, Slot.holding, hv]
  · rw [given.counters, hpc]
    exact h.cursor

theorem clears (h : Accounted m) (hcoh : Coherent code m) {b : Nat} (cleared : m.Clears b m') :
    Accounted m' := by
  have hcursor := h.cursor
  have hissued := cleared.issued
  have hlength := hcoh.order.length_issuedAfter b
  constructor
  · rw [cleared.counters, cleared.fetch, Fetch.countP_renewAfter _ _ (fun _ => rfl) fun _ _ _ => rfl, h.issued]
  · rw [cleared.counters, cleared.fetch, Fetch.countP_renewAfter _ _ (fun _ => rfl) fun _ _ _ => rfl, h.executed]
  · rw [cleared.counters, cleared.fetch, Fetch.countP_renewAfter _ _ (fun _ => rfl) fun _ _ _ => rfl, h.written]
  · rw [cleared.counters, cleared.fetch, Fetch.replaced_renewAfter, h.squashed]
  · rw [cleared.counters, cleared.fetch, hcoh.order.pc_renewAfter hissued]
    show m.counters.issued = b + 1 + (m.counters.squashed + (m.fetch.issuedAfter b).length)
    omega

theorem runs (h : Accounted m) (hd : Documented code m) (run : m.Runs i k st s v m') : Accounted m' := by
  obtain ⟨c, hv, -, hs⟩ := hd.times_ran run
  rw [(hd.records run.current).1] at hv
  have hfetch := run.fetch
  have hcounters := run.counters
  split at hfetch
  · next hone =>
    rw [if_pos hone] at hcounters hs
    refine h.moved hd.coherent run.current (by rw [hfetch]) ?_ ?_ ?_ (by rw [hcounters]) ?_
    · simp [hcounters, hs, hv]
    · simp [hcounters, hs, hv]
    · simp [hcounters, hs, hv]
    · rw [hcounters, run.pc_eq]
      exact h.cursor
  · next hmany =>
    rw [if_neg hmany] at hcounters
    obtain ⟨hi, hx, hw, hq, hp⟩ := h
    constructor <;> rw [hfetch, hcounters] <;> assumption

theorem enters (h : Accounted m) (hd : Documented code m) {left : Operand} {right : Option Operand}
    (entered : m.Enters v i st left right tag m') : Accounted m' := by
  have hcoh := hd.coherent
  have hposition : v.id.position = m.fetch.pc := hcoh.order.orderly.position_current entered.next
  have hcurrent : m.fetch.current? v.id.position = some v := hposition ▸ entered.next
  have hv := (hd.records hcurrent).1.symm.trans (hd.enters entered).1
  have hpc : m'.fetch.pc = m.fetch.pc + 1 := by rw [entered.fetch]; rfl
  refine h.moved hcoh hcurrent (by rw [entered.fetch]; rfl) ?_ ?_ ?_ (by rw [entered.counters]) ?_
  · simp [entered.counters, Slot.issued, hv, Times.none]
  · simp [entered.counters, Slot.issued, hv, Times.none]
  · simp [entered.counters, Slot.issued, hv, Times.none]
  · rw [entered.counters, hpc, Nat.add_right_comm, ← h.cursor]

theorem commits (h : Accounted m) (hd : Documented code m) {rest : List Slot} (left : m.Leaves s rest m')
    (live : s.isLive = true) (ready : s.ready = true) (occupant : s.occupant = some v.id)
    (current : m.fetch.current? v.id.position = some v)
    (fetch : m'.fetch = m.fetch.modify v.id (Sequenced.moved .committed (s.completed m.cycle).times))
    (counters : m'.counters = { m.counters with committed := m.counters.committed + 1 }) : Accounted m' := by
  have hs := (hd.commits left live ready occupant current fetch).1.trans (hd.records current).1
  refine h.moved hd.coherent current (by rw [fetch]) ?_ ?_ ?_ (by rw [counters]) ?_
  · simp [counters, Slot.completed, hs]
  · simp [counters, Slot.completed, hs]
  · simp [counters, Slot.completed, hs]
  · rw [counters, left.pc]
    exact h.cursor

theorem turn (h : Accounted m) (hd : Documented code m) (ht : m.Turn m') : Accounted m' := by
  rcases ht with turn | turn | turn | turn
  case write =>
    cases turn with
    | idle => exact h
    | gives given => exact h.gives hd given
    | clears given cleared => exact (h.gives hd given).clears (hd.coherent.move given.move) cleared
  case execute =>
    cases turn with
    | rests => exact h
    | waits => exact ⟨h.issued, h.executed, h.written, h.squashed, h.cursor⟩
    | runs run => exact h.runs hd run
  case issue =>
    cases turn with
    | ended => exact h
    | stalls => exact ⟨h.issued, h.executed, h.written, h.squashed, h.cursor⟩
    | enters entered => exact h.enters hd entered
  case commit =>
    cases turn with
    | empty | early => exact h
    | commits left _ _ live may occupant current _ fetch _ counters =>
      exact h.commits hd left live (Bool.and_eq_true_iff.1 may).1 occupant current fetch counters
    | discards left _ _ _ fetch _ counters =>
      obtain ⟨hi, hx, hw, hq, hp⟩ := h
      constructor <;> rw [fetch, counters] <;> assumption

end Accounted

theorem Session.Reached.accounted {config : Config} {code : List Instruction} {trace : List Deed}
    {s : Session} (hc : config.Admitted) (h : Session.Reached config code trace s) : Accounted s.machine := by
  have hall := h.keeps_counts hc (fun m => Faithful m ∧ Dated m ∧ Accounted m) (fun m hm => ?_)
    (fun _ _ hs ⟨hf, hd, ha⟩ => ⟨hf.of_core hs.toSameCore, hd.of_core hs.toSameCore, ha.of_same hs⟩)
    fun _ _ hcoh ⟨hf, hd, ha⟩ ht => ⟨hf.turn hcoh ht, hd.turn hcoh hf ht, ha.turn ⟨hcoh, hf, hd⟩ ht⟩
  · exact hall.2.2
  · have hfresh := fresh_of_initial hc hm
    exact ⟨.start hfresh.window, .start hfresh.window hfresh.fetch, .start hfresh.fetch hfresh.counters⟩

/-! ### Slots in flight -/

theorem ReorderBuffer.Contiguous.countP_slots {b : ReorderBuffer} (h : b.Contiguous) (p : Slot → Bool) :
    b.slots.countP (fun s => s.busy && p s) = b.window.countP p := by
  have hnodup : b.inFlight.Nodup := by
    rw [h.inFlight_eq]
    have hle := h.length_le
    refine List.nodup_range.map_on fun j hj k hk heq => ?_
    rw [List.mem_range] at hj hk
    exact (ReorderBuffer.place_inj (by omega) (by omega)).1 heq
  have hperm : ((List.range b.slots.size).filter b.isBusy).Perm b.inFlight := by
    refine (List.perm_ext_iff_of_nodup (List.nodup_range.filter _) hnodup).2 fun i => ?_
    rw [List.mem_filter, List.mem_range, h.mem_inFlight_iff]
    refine ⟨fun hi => hi.2, fun hi => ⟨?_, hi⟩⟩
    exact ReorderBuffer.mem_inFlight_lt (h.mem_inFlight_iff.2 hi)
  calc b.slots.countP (fun s => s.busy && p s)
      = (List.range b.slots.size).countP fun i => b.slots[i]?.any fun s => s.busy && p s := by
        rw [← Array.countP_toList, ← countP_range_getElem?, Array.length_toList]
        simp only [Array.getElem?_toList]
    _ = ((List.range b.slots.size).filter b.isBusy).countP fun i => b.slots[i]?.any p := by
        rw [List.countP_filter]
        refine List.countP_congr fun i _ => ?_
        cases hs : b.slots[i]? <;> simp [ReorderBuffer.isBusy, hs, and_comm]
    _ = b.inFlight.countP fun i => b.slots[i]?.any p := hperm.countP_eq _
    _ = b.window.countP p := by
        rw [ReorderBuffer.window, List.countP_filterMap]
        refine List.countP_congr fun i _ => ?_
        cases b.slots[i]? <;> simp

theorem Coherent.count_live {code : List Instruction} {m : Machine} (h : Coherent code m) :
    m.rob.slots.countP (fun s => s.busy && s.isLive) = m.fetch.pc - m.commits.size := by
  have hlive := congrArg List.length h.order.live_eq
  rw [List.length_map, List.length_map, List.length_range'] at hlive
  rw [h.ring.countP_slots, List.countP_eq_length_filter, hlive]
  rfl

/-! ### Stalls -/

/-- At work, with cycles to go and an operand still to come. -/
def Station.starves (s : Station) : Bool :=
  s.busy && s.remaining != 0 && (s.left.toList ++ s.right.toList).any fun o => !o.isResolved

namespace Machine

variable {code : List Instruction} {m m' : Machine} {i : Nat} {st : Station}

theorem starves_eq (h : Coherent code m) (hi : m.stations.stations[i]? = some st) :
    st.starves = (st.busy && !st.isReady) := by
  cases hb : st.busy with
  | false => simp [Station.starves, hb]
  | true =>
    obtain ⟨k, s, v, hm⟩ := exists_mans h hi hb
    have hleft := (hm.serves h).2.left
    have hlacks : ((st.left.toList ++ st.right.toList).any fun o => !o.isResolved) = !st.isReady := by
      rw [Station.isReady, hb, hleft]
      cases st.right <;> simp
    rw [Station.starves, hb, hlacks]
    cases hr : st.remaining with
    | zero => simp [h.staffed.finished i st hi hb hr]
    | succ n => simp

theorem card_starving (h : Coherent code m) :
    (m.stations.places fun st => st.busy && !st.isReady).card = m.stations.stations.countP Station.starves := by
  have hcount := countP_range_getElem? m.stations.stations.toList Station.starves
  rw [StationTable.card_places, ← Array.countP_toList, ← hcount]
  refine List.countP_congr fun i _ => ?_
  rw [Array.getElem?_toList]
  cases hi : m.stations.stations[i]? with
  | none => rfl
  | some st => rw [Option.any_some, Option.any_some, starves_eq h hi]

theorem IssueTurn.stalls_eq (turn : m.IssueTurn m') : m'.counters.stalls =
    m.counters.stalls + if m.fetch.next?.isSome ∧ m'.fetch.pc = m.fetch.pc then 1 else 0 := by
  cases turn with
  | ended none => simp [none]
  | stalls _ next =>
    rw [if_pos ⟨by rw [next]; rfl, rfl⟩]
    rfl
  | enters entered =>
    have hpc : m'.fetch.pc = m.fetch.pc + 1 := by rw [entered.fetch]; rfl
    rw [if_neg (by omega), entered.counters]
    rfl

/-- One stall for every station that starves after the first phase, and one for an instruction that the third
phase finds and does not issue. -/
def CountsStalls (m m' : Machine) : Prop :=
  ∃ written executed issued, m.tick.writeResults = .ok written ∧ written.execute = .ok executed ∧
    executed.issue = .ok issued ∧ m'.counters.stalls = m.counters.stalls +
      written.stations.stations.countP Station.starves +
      if executed.fetch.next?.isSome ∧ issued.fetch.pc = executed.fetch.pc then 1 else 0

theorem runCycle_stalls (h : Coherent code m) (hm : m.runCycle = .ok m') : m.CountsStalls m' := by
  obtain ⟨written, executed, issued, last, hw, hwritten, hx, -, hi, hit, -, -, hct, -, rfl⟩ := runCycle_phases h hm
  have hstalls : written.counters.stalls = m.counters.stalls :=
    writeResults_keeps (fun _ n => n.counters.stalls = m.counters.stalls)
      (fun _ _ _ _ _ hsame turn => turn.counters.1.trans hsame) h.tick rfl hw
  refine ⟨written, executed, issued, hw, hx, hi, ?_⟩
  rw [counters_settle, hct.counters.1, hit.stalls_eq, execute_stalls hwritten hx, card_starving hwritten, hstalls]

/-- What the counters say of a machine between two cycles. -/
structure Balanced (m : Machine) : Prop where
  cursor : m.counters.issued - m.counters.squashed = m.fetch.pc
  squashed_le : m.counters.squashed ≤ m.counters.issued
  inFlight : m.counters.issued = m.counters.committed + m.counters.squashed +
    m.rob.slots.countP fun s => s.busy && s.isLive
  committed : m.counters.committed = m.commits.size
  replaced : m.counters.squashed = (m.fetch.histories.toList.map fun h => h.versions.length - 1).sum
  squashed : m.counters.squashed = m.fetch.versions.countP fun v => v.stage == .squashed
  issued : m.counters.issued = m.fetch.versions.countP fun v => v.times.issue.isSome
  executed : m.counters.executed = m.fetch.versions.countP fun v => v.times.executeDone.isSome
  written : m.counters.written = m.fetch.versions.countP fun v => v.times.write.isSome

end Machine

/-- The counters account for every version, and a step counts its stalls. -/
theorem counters_account {config : Config} {code : List Instruction} {trace : List Deed} {s : Session}
    (hc : config.Admitted) (h : Session.Reached config code trace s) : s.machine.Balanced ∧
      ∀ s', s.isComplete = false → s.step = .ok (s', .ok ()) → s.machine.CountsStalls s'.machine := by
  have hcoh := h.coherent hc
  have haccounted := h.accounted hc
  have hcursor := haccounted.cursor
  have hcommitted : s.machine.counters.committed = s.machine.commits.size := (h.finished hc).counted
  have hcommits : s.machine.commits.size ≤ s.machine.fetch.pc := hcoh.order.commits_le
  obtain ⟨hreplaced, hsquashed⟩ := Fetch.replaced_eq hcoh.order.orderly
  constructor
  · exact
      { cursor := by omega
        squashed_le := by omega
        inFlight := by
          rw [hcoh.count_live]
          omega
        committed := hcommitted
        replaced := haccounted.squashed.trans hreplaced
        squashed := haccounted.squashed.trans hsquashed
        issued := haccounted.issued
        executed := haccounted.executed
        written := haccounted.written }
  · intro s' hincomplete hstep
    rcases Session.step_eq hstep with ⟨hcomplete, -⟩ | ⟨-, m, hm, he⟩
    · simp [hincomplete] at hcomplete
    · obtain ⟨written, executed, issued, hw, hx, hi, hstalls⟩ := runCycle_stalls hcoh hm
      exact ⟨written, executed, issued, hw, hx, hi, by rw [he]; exact hstalls⟩

/-- Behind a taken branch a multiplication and an addition are issued a second time. In the cycle after that the
addition waits for the product. -/
theorem counters_account_branch : ∃ (config : Config) (code : List Instruction) (trace : List Deed)
    (s s' : Session), config.Admitted ∧ Session.Reached config code trace s ∧ s.isComplete = false ∧
      s.step = .ok (s', .ok ()) ∧ s.machine.counters = ⟨5, 1, 1, 1, 0, 2, 5⟩ ∧ s.machine.Balanced ∧
      s'.machine.counters.stalls = 1 ∧ s.machine.CountsStalls s'.machine := by
  let branch : Instruction := ⟨.beq, none, ⟨0⟩, some ⟨0⟩, 1, []⟩
  let mul : Instruction := ⟨.mul, some ⟨1⟩, ⟨2⟩, some ⟨3⟩, 0, []⟩
  let add : Instruction := ⟨.add, some ⟨4⟩, ⟨1⟩, some ⟨3⟩, 0, []⟩
  let config : Config := { Config.standard with memorySize := 0 }
  have hadmitted : config.Admitted := ⟨by decide, by decide, by decide⟩
  have hrun : ∃ r ∈ Session.tracedRun config [branch, mul, add] 5, r.2.isComplete = false ∧
      r.2.machine.counters = ⟨5, 1, 1, 1, 0, 2, 5⟩ ∧
      ∃ next ∈ r.2.traced 1, next.2.machine.counters.stalls = 1 := by
    decide +kernel
  obtain ⟨⟨trace, s⟩, hr, hincomplete, hcounters, ⟨more, s'⟩, hnext, hstalls⟩ := hrun
  have hreached := Session.Reached.of_tracedRun hr
  have hstep := Session.step_of_traced hnext
  obtain ⟨hbalanced, hcounts⟩ := counters_account hadmitted hreached
  exact ⟨config, _, trace, s, s', hadmitted, hreached, hincomplete, hstep, hcounters, hbalanced, hstalls,
    hcounts s' hincomplete hstep⟩

end OutOfOrder
