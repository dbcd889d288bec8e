import OutOfOrder.Proofs.Run
import OutOfOrder.Proofs.Units

/-!
The first position that has not committed, turn by turn. It is never squashed and never waits for an operand,
and as nothing else is in flight when it is to be issued, nothing can deny it a slot, a register or a station.
-/

set_option autoImplicit false

namespace OutOfOrder

/-- How many cancelled slots stand in front. -/
def lead (w : List Slot) : Nat := w.findIdx Slot.isLive

section Lead

variable {w rest : List Slot} {s : Slot}

theorem lead_le (w : List Slot) : lead w ≤ w.length := List.findIdx_le_length

theorem lead_cons (s : Slot) (rest : List Slot) :
    lead (s :: rest) = if s.isLive then 0 else lead rest + 1 := by
  simp only [lead, List.findIdx_cons]
  cases s.isLive <;> rfl

theorem lead_map {u : Slot → Slot} (hu : ∀ s ∈ w, (u s).isLive = s.isLive) : lead (w.map u) = lead w := by
  induction w with
  | nil => rfl
  | cons s rest ih =>
    rw [List.map_cons, lead_cons, lead_cons, hu s (List.mem_cons_self ..),
      ih fun t ht => hu t (List.mem_cons_of_mem s ht)]

/-- The first slot that is live stays so. -/
theorem lead_cancelAfter {b : Nat} (h : ∀ s, w.find? Slot.isLive = some s → s.isAfter b = false) :
    lead (w.map (Slot.cancelAfter b)) = lead w := by
  induction w with
  | nil => rfl
  | cons s rest ih =>
    have hself : s.cancelAfter b = s := by
      refine Slot.cancelAfter_of_isAfter_eq_false ?_
      by_cases hl : s.isLive = true
      · exact h s (List.find?_cons_of_pos hl)
      · simp [Slot.isAfter, hl]
    rw [List.map_cons, lead_cons, lead_cons, hself]
    split
    · rfl
    · next hl => rw [ih fun t ht => h t (by rwa [List.find?_cons_of_neg hl])]

theorem lead_concat (hl : s.isLive = true) (w : List Slot) : lead (w ++ [s]) = lead w := by
  induction w with
  | nil => simp [hl, lead]
  | cons t rest ih => rw [List.cons_append, lead_cons, lead_cons, ih]

end Lead

section Front

variable {code : List Instruction} {m m' : Machine} {i k t c : Nat} {st : Station} {s : Slot} {v : Instance}
  {tag : Tag} {result : Word} {clock : Nat → Nat}

open Machine

namespace Coherent

/-- The first slot that is live holds the first position that has not committed. -/
theorem position_of_first (h : Coherent code m) (hs : m.rob.window.find? Slot.isLive = some s) :
    ∃ id, s.occupant = some id ∧ id.position = m.commits.toList.length := by
  have hlive := h.order.live_eq
  rw [← List.head?_filter] at hs
  obtain ⟨rest, hfilter⟩ : ∃ rest, m.rob.window.filter Slot.isLive = s :: rest := by
    cases hf : m.rob.window.filter Slot.isLive with
    | nil => simp [hf] at hs
    | cons x rest => exact ⟨rest, by simpa [hf] using hs⟩
  rw [hfilter, List.map_cons] at hlive
  have hpc := h.order.pc_le
  cases hn : m.fetch.pc - m.commits.toList.length with
  | zero =>
    rw [hn] at hlive
    exact absurd hlive (by simp)
  | succ n =>
    rw [hn, List.range'_succ, List.map_cons, List.cons.injEq] at hlive
    obtain ⟨x, -, hid, hpos⟩ := h.order.idAt_eq (show m.commits.toList.length < code.length by omega)
    exact ⟨x.id, hlive.1.trans hid, hpos⟩

/-- Whoever works for the first position that has not committed has its operands. -/
theorem isReady_of_first (h : Coherent code m) (hm : m.Mans i st k s v)
    (hp : v.id.position = m.commits.toList.length) : st.isReady = true := by
  refine (hm.isReady_iff h).2 fun r _ u hu => ?_
  obtain ⟨l, hlt, hget, hl, -⟩ := exists_index_of_lastWriter hu
  obtain ⟨x, hx, -, hle, -⟩ := h.order.current_of_live (List.mem_of_getElem? hget) hl
  obtain ⟨hll, hgetl⟩ := List.getElem?_eq_some_iff.1 hget
  obtain ⟨hkl, hgetk⟩ := List.getElem?_eq_some_iff.1 hm.slot
  have hpair := List.pairwise_iff_getElem.1 h.order.pairwise_live l k hll hkl hlt
  rw [hgetl, hgetk] at hpair
  have hlt' := hpair hl hm.isLive x.id v.id hx hm.occupant
  omega

/-- No station is busy while the cursor stands at the first position that has not committed. -/
theorem idle_of_caught_up (h : Coherent code m) (hpc : m.fetch.pc ≤ m.commits.toList.length)
    (hi : m.stations.stations[i]? = some st) : st.busy = false := by
  by_contra hb
  rw [Bool.not_eq_false] at hb
  obtain ⟨k, s, v, hm⟩ := exists_mans h hi hb
  have hlt := hm.issued
  have hle := hm.uncommitted
  omega

end Coherent

/-- The front of the window has not moved. -/
structure SameFront (m m' : Machine) : Prop where
  commits : m'.commits = m.commits
  length : m'.rob.window.length = m.rob.window.length
  lead : lead m'.rob.window = lead m.rob.window
  issued : m.commits.toList.length < m.fetch.pc → m.commits.toList.length < m'.fetch.pc

namespace SameFront

theorem refl (m : Machine) : SameFront m m := ⟨rfl, rfl, rfl, id⟩

theorem trans {m₀ : Machine} (h : SameFront m₀ m) (h' : SameFront m m') : SameFront m₀ m' where
  commits := h'.commits.trans h.commits
  length := h'.length.trans h.length
  lead := h'.lead.trans h.lead
  issued := fun hlt => by
    have hm := h'.issued (h.commits ▸ h.issued hlt)
    rwa [h.commits] at hm

theorem gives (given : m.Gives i k st s v tag result m') : SameFront m m' where
  commits := given.commits
  length := by rw [given.window, List.length_map]
  lead := by rw [given.window, lead_map fun u hu => (given.arrives.sameRole u hu).isLive]
  issued := by rw [given.fetch]; exact id

theorem clears (h : Coherent code m) {b : Nat} (cleared : m.Clears b m') : SameFront m m' where
  commits := cleared.commits
  length := by rw [cleared.window, List.length_map]
  lead := by
    rw [cleared.window]
    -- the branch has not committed either, so the first that has not is not behind it
    refine lead_cancelAfter fun u hu => ?_
    obtain ⟨id, ho, hp⟩ := h.position_of_first hu
    have hle : ¬b < id.position := by
      have := cleared.uncommitted
      omega
    simp [Slot.isAfter, ho, hle]
  issued := by
    rw [cleared.fetch, h.order.pc_renewAfter cleared.issued]
    have hle := cleared.uncommitted
    omega

theorem writeTurn (h : Coherent code m) (turn : m.WriteTurn i m') : SameFront m m' := by
  cases turn with
  | idle => exact .refl m
  | gives given => exact .gives given
  | clears given cleared => exact (SameFront.gives given).trans (.clears (h.move given.move) cleared)

theorem executeTurn (h : Coherent code m) (turn : m.ExecuteTurn i m') : SameFront m m' := by
  cases turn with
  | rests => exact .refl m
  | waits => exact ⟨rfl, rfl, rfl, id⟩
  | runs run =>
    refine ⟨run.commits, by rw [run.window, List.length_map],
      by rw [run.window, lead_map fun u hu => (run.sameRole h u hu).isLive], ?_⟩
    rw [run.pc_eq]
    exact id

end SameFront

/-- What is known of the first position that has not committed, when the one before it did in cycle `t`. The
clock says of each station how many cycles it has executed. -/
structure Front (t : Nat) (clock : Nat → Nat) (m : Machine) : Prop where
  working : ∀ i st k s v, m.Mans i st k s v → v.id.position = m.commits.toList.length →
    st.remaining + clock i ≤ t + 6
  written : ∀ s ∈ m.rob.window, s.isLive = true → ∀ id, s.occupant = some id →
    id.position = m.commits.toList.length → s.ready = true → ∃ c, s.times.write = some c ∧ c ≤ t + 7
  short : ∀ (i : Nat) (st : Station), m.stations.stations[i]? = some st → st.busy = true → st.remaining ≤ 5
  stamped : ∀ s ∈ m.rob.window, s.ready = true → ∃ c, s.times.write = some c ∧ c ≤ m.cycle

namespace Front

/-- A clock may be set back. -/
theorem mono (h : Front t clock m) {clock' : Nat → Nat}
    (hle : ∀ (i : Nat) (st : Station), m.stations.stations[i]? = some st → clock' i ≤ clock i) :
    Front t clock' m where
  working := fun i st k s v hm hp => by
    have hw := h.working i st k s v hm hp
    have hc := hle i st hm.station
    omega
  written := h.written
  short := h.short
  stamped := h.stamped

theorem of_core (h : Front t clock m) (hs : SameCore m m') (hc : m.cycle ≤ m'.cycle) : Front t clock m' where
  working := fun i st k s v hm hp => h.working i st k s v (hm.of_core hs) (hs.commits ▸ hp)
  written := by
    rw [hs.rob, hs.commits]
    exact h.written
  short := by
    rw [hs.stations]
    exact h.short
  stamped := by
    rw [hs.rob]
    intro s hs' hr
    obtain ⟨c, hw, hle⟩ := h.stamped s hs' hr
    exact ⟨c, hw, by omega⟩

theorem gives (h : Front t (fun _ => c) m) (hcoh : Coherent code m) (hcycle : m.cycle = c + 1)
    (given : m.Gives i k st s v tag result m') : Front t (fun _ => c) m' where
  working := fun j st' l u w hm hp => by
    obtain ⟨-, -, before, hbefore, rfl⟩ := Mans.of_gives hcoh given hm
    rw [given.commits] at hp
    exact h.working j before l u w hbefore hp
  written := by
    rw [given.commits]
    intro u hu hl id ho hp hr
    rcases given.mem_of_ready hcoh hu hr with rfl | hu
    · obtain rfl := Option.some.inj (given.occupant.symm.trans ho)
      have hw := h.working i st k s v given.mans hp
      rw [given.last] at hw
      exact ⟨m.cycle, rfl, by omega⟩
    · exact h.written u hu hl id ho hp hr
  short := by
    intro j st' hj hb
    obtain ⟨before, hbefore, hb', hr⟩ := given.subsides j st' hj hb
    rw [hr]
    exact h.short j before hbefore hb'
  stamped := by
    rw [given.move.steady.cycle]
    intro u hu hr
    rcases given.mem_of_ready hcoh hu hr with rfl | hu
    · exact ⟨m.cycle, rfl, Nat.le_refl _⟩
    · exact h.stamped u hu hr

theorem clears (h : Front t clock m) (hcoh : Coherent code m) {b : Nat} (cleared : m.Clears b m') :
    Front t clock m' where
  working := fun j st' l u w hm hp => by
    rw [cleared.commits] at hp
    exact h.working j st' l u w (Mans.of_clears hcoh cleared hm).1 hp
  written := by
    rw [cleared.commits]
    exact fun u hu hl => h.written u (cleared.mem_of_isLive hu hl) hl
  short := by
    intro j st' hj hb
    exact h.short j st' (Staffed.busy_vacated cleared.stations hj hb).1 hb
  stamped := by
    rw [cleared.move.steady.cycle]
    exact fun u hu hr => h.stamped u (cleared.mem_of_ready hu hr) hr

theorem writeTurn (h : Front t (fun _ => c) m) (hcoh : Coherent code m) (hcycle : m.cycle = c + 1)
    (turn : m.WriteTurn i m') : Front t (fun _ => c) m' := by
  cases turn with
  | idle => exact h
  | gives given => exact h.gives hcoh hcycle given
  | clears given cleared => exact (h.gives hcoh hcycle given).clears (hcoh.move given.move) cleared

theorem runs (h : Front t clock m) (hcoh : Coherent code m) (run : m.Runs i k st s v m')
    {clock' : Nat → Nat} (hi : clock' i = clock i + 1) (hne : ∀ j, j ≠ i → clock' j = clock j) :
    Front t clock' m' where
  working := fun j st' l u w hm hp => by
    rw [run.commits] at hp
    rcases Mans.of_runs hcoh run hm with ⟨rfl, rfl, rfl, rfl, rfl⟩ | ⟨hj, -, hbefore⟩
    · have hid : v.id.position = m.commits.toList.length := by
        rw [← hp]
        split <;> rfl
      have hw := h.working _ _ _ _ _ run.mans hid
      have hmore := run.more
      rw [hi]
      dsimp only
      omega
    · rw [hne j hj]
      exact h.working j st' l u w hbefore hp
  written := by
    rw [run.commits]
    exact fun u hu hl id ho hp hr => h.written u (run.mem_of_ready hcoh hu hr) hl id ho hp hr
  short := by
    intro j st' hj hb
    rw [run.stations, countdown, StationTable.getElem?_stations_modify] at hj
    split at hj
    · next hij =>
      subst hij
      rw [run.station, Option.map_some, Option.some.injEq] at hj
      subst hj
      have hle := h.short i st run.station run.busy
      dsimp only
      omega
    · exact h.short j st' hj hb
  stamped := by
    rw [run.moves.steady.cycle]
    exact fun u hu hr => h.stamped u (run.mem_of_ready hcoh hu hr) hr

/-- The station whose turn it is has now executed one cycle more, unless it rests without being done. -/
theorem executeTurn (h : Front t clock m) (hcoh : Coherent code m)
    (hmore : ∀ st, m.stations.stations[i]? = some st → st.busy = true → st.remaining ≠ 0)
    (turn : m.ExecuteTurn i m') {clock' : Nat → Nat} (hi : clock' i = clock i + 1)
    (hne : ∀ j, j ≠ i → clock' j = clock j) : Front t clock' m' := by
  cases turn with
  | @rests st station done =>
    refine ⟨fun j st' l u w hm hp => ?_, h.written, h.short, h.stamped⟩
    by_cases hj : j = i
    · subst hj
      obtain rfl := Option.some.inj (station.symm.trans hm.station)
      rcases done with hb | hz
      · rw [hm.busy] at hb
        simp at hb
      · exact absurd hz (hmore st station hm.busy)
    · rw [hne j hj]
      exact h.working j st' l u w hm hp
  | @waits st station busy more unready =>
    refine of_core (m := m) ⟨fun j st' l u w hm hp => ?_, h.written, h.short, h.stamped⟩
      ⟨rfl, rfl, rfl, rfl, rfl, rfl, rfl, rfl⟩ (Nat.le_refl _)
    by_cases hj : j = i
    · subst hj
      obtain rfl := Option.some.inj (station.symm.trans hm.station)
      rw [hcoh.isReady_of_first hm hp] at unready
      simp at unready
    · rw [hne j hj]
      exact h.working j st' l u w hm hp
  | runs run => exact h.runs hcoh run hi hne

theorem enters (h : Front t (fun _ => c + 1) m) (hcoh : Coherent code m) {left : Operand}
    {right : Option Operand} (entered : m.Enters v i st left right tag m')
    (hfirst : m.fetch.pc = m.commits.toList.length → c ≤ t) : Front t (fun _ => c + 1) m' where
  working := fun j st' l u w hm hp => by
    rw [entered.commits] at hp
    rcases Mans.of_enters hcoh entered hm with ⟨-, -, rfl, -, rfl⟩ | ⟨-, -, hbefore⟩
    · have hpc : v.id.position = m.fetch.pc := hcoh.order.orderly.position_current entered.next
      have hlatency := v.instr.opcode.latency_le
      have hle := hfirst (hpc.symm.trans hp)
      show v.instr.opcode.latency + (c + 1) ≤ _
      omega
    · exact h.working j st' l u w hbefore hp
  written := by
    rw [entered.commits]
    exact fun u hu hl id ho hp hr => h.written u (entered.mem_of_ready hu hr) hl id ho hp hr
  short := by
    intro j st' hj hb
    rw [entered.stations, StationTable.getElem?_stations_modify] at hj
    split at hj
    · obtain ⟨st₀, -, rfl⟩ := Option.map_eq_some_iff.1 hj
      exact v.instr.opcode.latency_le
    · exact h.short j st' hj hb
  stamped := by
    rw [entered.move.steady.cycle]
    exact fun u hu hr => h.stamped u (entered.mem_of_ready hu hr) hr

/-- The head retires and the position in front stays the same. -/
theorem leaves (h : Front t clock m) {rest : List Slot} (left : m.Leaves s rest m')
    (hcommits : m'.commits = m.commits) (hcycle : m'.cycle = m.cycle) : Front t clock m' where
  working := fun j st' l u w hm hp => h.working j st' (l + 1) u w (hm.of_leaves left) (hcommits ▸ hp)
  written := by
    rw [hcommits]
    exact fun u hu => h.written u (left.mem hu)
  short := by
    rw [left.stations]
    exact h.short
  stamped := by
    rw [hcycle]
    exact fun u hu => h.stamped u (left.mem hu)

/-- The head commits, and what is in front now has as long as the one before it had. -/
theorem restart (h : Front t clock m) {rest : List Slot} (left : m.Leaves s rest m')
    (hcycle : m'.cycle = m.cycle) (hclock : ∀ i, clock i ≤ m.cycle) : Front m.cycle clock m' where
  working := fun j st' l u w hm _ => by
    have hle := h.short j st' (left.stations ▸ hm.station) hm.busy
    have hc := hclock j
    omega
  written := fun u hu _ _ _ _ hr => by
    obtain ⟨c, hw, hle⟩ := h.stamped u (left.mem hu) hr
    exact ⟨c, hw, by omega⟩
  short := by
    rw [left.stations]
    exact h.short
  stamped := by
    rw [hcycle]
    exact fun u hu => h.stamped u (left.mem hu)

/-! ### The phases -/

theorem writeResults (h : Front t (fun _ => c) m) (hcoh : Coherent code m) (hcycle : m.cycle = c + 1)
    (hm : m.writeResults = .ok m') : Front t (fun _ => c) m' ∧ SameFront m m' := by
  have hkept := writeResults_keeps
    (fun _ n => Front t (fun _ => c) n ∧ SameFront m n ∧ n.cycle = c + 1) ?_ hcoh ⟨h, .refl m, hcycle⟩ hm
  · exact ⟨hkept.1, hkept.2.1⟩
  · intro i rest n n' hn ⟨hfront, hsame, hc⟩ turn
    exact ⟨hfront.writeTurn hn hc turn, hsame.trans (.writeTurn hn turn), turn.moves.steady.cycle.trans hc⟩

theorem execute (h : Front t (fun _ => c) m) (hcoh : Coherent code m)
    (hmore : ∀ (i : Nat) st, m.stations.stations[i]? = some st → st.busy = true → st.remaining ≠ 0)
    (hm : m.execute = .ok m') : Front t (fun _ => c + 1) m' ∧ SameFront m m' := by
  have hkept := execute_keeps
    (fun rest n => Front t (fun j => if j ∈ rest then c else c + 1) n ∧ SameFront m n ∧
      ∀ j ∈ rest, ∀ st, n.stations.stations[j]? = some st → st.busy = true → st.remaining ≠ 0)
    ?_ hcoh ⟨h.mono fun i st hi => ?_, .refl m, fun i _ => hmore i⟩ hm
  · refine ⟨hkept.1.mono fun i st _ => ?_, hkept.2.1⟩
    rw [if_neg List.not_mem_nil]
  · intro i rest n n' hn hi ⟨hfront, hsame, hleft⟩ turn
    refine ⟨hfront.executeTurn hn (hleft i (List.mem_cons_self ..)) turn ?_ fun j hj => ?_,
      hsame.trans (.executeTurn hn turn), fun j hj st hst => ?_⟩
    · rw [if_neg hi, if_pos (List.mem_cons_self ..)]
    · simp only [List.mem_cons, hj, false_or]
    · refine hleft j (List.mem_cons_of_mem i hj) st ?_
      cases turn with
      | rests | waits => exact hst
      | runs run =>
        have hne : i ≠ j := fun he => hi (he ▸ hj)
        rwa [run.stations, countdown, StationTable.getElem?_stations_modify, if_neg hne] at hst
  · have hlt : i < m.stations.size := (Array.getElem?_eq_some_iff.1 hi).1
    rw [if_pos (List.mem_range.2 hlt)]

theorem issueTurn (h : Front t (fun _ => c + 1) m) (hcoh : Coherent code m)
    (hfirst : m.fetch.pc = m.commits.toList.length → c ≤ t) (turn : m.IssueTurn m') :
    Front t (fun _ => c + 1) m' := by
  cases turn with
  | ended => exact h
  | stalls shortage =>
    exact h.of_core ⟨rfl, rfl, rfl, rfl, rfl, rfl, rfl, rfl⟩ (Nat.le_refl _)
  | enters entered => exact h.enters hcoh entered hfirst

end Front

end Front

/-! ### Issuing what is in front -/

section Issue

variable {code : List Instruction} {m m' : Machine}

open Machine

/-- With a slot and a register to be had, and no station busy, the instruction at the cursor is issued. -/
theorem Machine.IssueTurn.pc_eq (turn : m.IssueTurn m') (h : Coherent code m)
    (hpc : m.fetch.pc < code.length) (hunits : ∀ i ∈ code, i.opcode.unit ∈ m.stations.units)
    (hslot : m.rob.window.length < m.rob.capacity) (hregister : m.rob.window.length < m.physical.count)
    (hidle : ∀ (i : Nat) (st : Station), m.stations.stations[i]? = some st → st.busy = false) :
    m'.fetch.pc = m.fetch.pc + 1 := by
  cases turn with
  | ended none =>
    obtain ⟨v, hv⟩ := h.order.orderly.exists_current hpc
    exact absurd (none.symm.trans hv) (by simp)
  | @stalls v shortage next lack =>
    exfalso
    rcases lack with full | unavailable | empty
    · rw [h.ring.hasRoom_eq, decide_eq_false_iff_not] at full
      exact full hslot
    · have hinstr := List.mem_of_getElem? (h.order.orderly.instr_current next)
      obtain ⟨i, st, hi, hu⟩ := StationTable.mem_units.1 (hunits _ hinstr)
      exact StationTable.idleIn_ne_none hi hu (hidle i st hi) unavailable
    · have hall := h.tags.allocate_eq_none_iff.1 empty
      omega
  | enters entered =>
    rw [entered.fetch]
    rfl

theorem Machine.IssueTurn.keeps (turn : m.IssueTurn m') : m'.commits = m.commits ∧
    lead m'.rob.window = lead m.rob.window ∧ m.fetch.pc ≤ m'.fetch.pc := by
  cases turn with
  | ended | stalls => exact ⟨rfl, rfl, Nat.le_refl _⟩
  | enters entered =>
    refine ⟨entered.commits, ?_, ?_⟩
    · rw [entered.window]
      exact lead_concat rfl _
    · rw [entered.fetch]
      exact Nat.le_succ _

end Issue

end OutOfOrder
