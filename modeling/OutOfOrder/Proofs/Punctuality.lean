import OutOfOrder.Proofs.Timesheet
import Mathlib.Logic.Relation
import Mathlib.Order.Bounds.Defs

/-!
When a version executes, writes and commits, squashed or not: its execution starts once it has been issued and the
versions that it reads from have written, lasts as long as its operation does, and the result is written in the
cycle after.
-/

set_option autoImplicit false

namespace OutOfOrder

open Machine

/-! ### The versions that an instruction reads from -/

/-- For each operand the version in the last slot that writes its register, if there is one. -/
def writersFor (w : List Slot) (i : Instruction) : List InstanceId :=
  i.reads.filterMap fun r => (lastWriter w r).bind Slot.occupant

section WritersFor

variable {w rest : List Slot} {s : Slot} {i : Instruction} {q : InstanceId}

theorem mem_writersFor : q ∈ writersFor w i ↔
    ∃ r ∈ i.reads, ∃ s, lastWriter w r = some s ∧ s.occupant = some q := by
  simp only [writersFor, List.mem_filterMap, Option.bind_eq_some_iff]

theorem writersFor_map {u : Slot → Slot} (hu : ∀ s ∈ w, s.SameRole (u s)) :
    writersFor (w.map u) i = writersFor w i := by
  refine List.filterMap_congr fun r _ => ?_
  rw [lastWriter_map fun s hs => (hu s hs).writes r]
  cases hl : lastWriter w r with
  | none => rfl
  | some s => exact (hu s (mem_of_lastWriter hl).1).occupant

/-- The slot in front is read from when no other one writes the register. -/
theorem mem_writersFor_cons (hq : q ∈ writersFor (s :: rest) i) :
    q ∈ writersFor rest i ∨ s.isLive = true ∧ s.occupant = some q := by
  obtain ⟨r, hr, t, hl, ho⟩ := mem_writersFor.1 hq
  rw [lastWriter_cons] at hl
  cases hrest : lastWriter rest r with
  | some u =>
    have hu : u = t := by simpa [hrest] using hl
    exact .inl (mem_writersFor.2 ⟨r, hr, u, hrest, hu ▸ ho⟩)
  | none =>
    obtain ⟨hwrites, rfl⟩ : s.writes r = true ∧ s = t := by simpa [hrest] using hl
    exact .inr ⟨(Bool.and_eq_true_iff.1 hwrites).1, ho⟩

theorem writersFor_subset_cons : writersFor rest i ⊆ writersFor (s :: rest) i := by
  intro q hq
  obtain ⟨r, hr, t, hl, ho⟩ := mem_writersFor.1 hq
  exact mem_writersFor.2 ⟨r, hr, t, by simp [lastWriter_cons, hl], ho⟩

end WritersFor

/-! ### Punctual times -/

/-- The latest of the cycle after the issue and the cycles in which the sources have written. -/
structure Starts (book : InstanceId → Times) (sources : List InstanceId) (issue start : Nat) : Prop where
  written : ∀ q ∈ sources, (book q).write.isSome = true
  latest : IsGreatest {c | c = issue + 1 ∨ ∃ q ∈ sources, (book q).write = some c} start

/-- The cycles on record for a version that reads from the sources, as the others are in the book. -/
structure Times.Punctual (t : Times) (book : InstanceId → Times) (sources : List InstanceId) (latency : Nat) :
    Prop where
  start : ∀ x, t.execute = some x → ∃ i, t.issue = some i ∧ Starts book sources i x
  done : ∀ d, t.executeDone = some d → ∃ x, t.execute = some x ∧ d = x + latency - 1
  write : ∀ w, t.write = some w → ∃ d, t.executeDone = some d ∧ w = d + 1
  commit : ∀ c, t.commit = some c → ∃ w, t.write = some w ∧ w < c

section Book

variable {book book' : InstanceId → Times} {sources : List InstanceId} {issue start latency : Nat} {t : Times}

/-- No write is taken back. -/
def KeepsWrites (book book' : InstanceId → Times) : Prop :=
  ∀ q w, (book q).write = some w → (book' q).write = some w

theorem KeepsWrites.of_eq (h : ∀ q, (book' q).write = (book q).write) : KeepsWrites book book' :=
  fun q _ hw => (h q).trans hw

theorem Starts.mono (h : Starts book sources issue start) (hkeeps : KeepsWrites book book') :
    Starts book' sources issue start := by
  have hsame : ∀ q ∈ sources, (book' q).write = (book q).write := by
    intro q hq
    obtain ⟨w, hw⟩ := Option.isSome_iff_exists.1 (h.written q hq)
    rw [hw, hkeeps q w hw]
  refine ⟨fun q hq => by rw [hsame q hq, h.written q hq], ?_, fun c hc => h.latest.2 (hc.imp_right ?_)⟩
  · exact h.latest.1.imp_right fun ⟨q, hq, hw⟩ => ⟨q, hq, by rw [hsame q hq, hw]⟩
  · exact fun ⟨q, hq, hw⟩ => ⟨q, hq, by rw [← hsame q hq, hw]⟩

theorem Times.Punctual.mono (h : t.Punctual book sources latency) (hkeeps : KeepsWrites book book') :
    t.Punctual book' sources latency where
  start x hx := by
    obtain ⟨i, hi, hstarts⟩ := h.start x hx
    exact ⟨i, hi, hstarts.mono hkeeps⟩
  done := h.done
  write := h.write
  commit := h.commit

end Book

/-- What is on record for a version, with itself or in its slot; the start of an execution shows in the slot
first. -/
def Machine.Shows (m : Machine) (id : InstanceId) (t : Times) : Prop :=
  t = m.fetch.timesOf id ∨ ∃ s ∈ m.rob.window, s.occupant = some id ∧ s.times = t

/-- How far a station is that has had its turns up to cycle `run`. -/
inductive Progress (book : InstanceId → Times) (sources : List InstanceId) (latency run remaining : Nat)
    (t : Times) : Prop
  | waits {i : Nat} (issue : t.issue = some i) (execute : t.execute = none) (issued : i ≤ run)
      (whole : remaining = latency)
      (starved : run = i ∨ ∃ q ∈ sources, ∀ w, (book q).write = some w → run < w) :
      Progress book sources latency run remaining t
  | runs {x : Nat} (execute : t.execute = some x) (begun : x ≤ run)
      (left : remaining + run + 1 = x + latency) : Progress book sources latency run remaining t

theorem Progress.mono {book book' : InstanceId → Times} {sources : List InstanceId}
    {latency run remaining : Nat} {t : Times} (h : Progress book sources latency run remaining t)
    (hnew : ∀ q w, (book' q).write = some w → (book q).write = some w ∨ run < w) :
    Progress book' sources latency run remaining t := by
  cases h with
  | waits issue execute issued whole starved =>
    refine .waits issue execute issued whole (starved.imp_right fun ⟨q, hq, hlate⟩ => ⟨q, hq, fun w hw => ?_⟩)
    exact (hnew q w hw).elim (hlate w) id
  | runs execute begun left => exact .runs execute begun left

/-- An instruction at place `k` reads from the sources: each is in a slot before it, or has written. -/
structure Machine.Reads (m : Machine) (k : Nat) (i : Instruction) (sources : List InstanceId) : Prop where
  planned : writersFor (m.rob.window.take k) i ⊆ sources
  written : ∀ q ∈ sources, q ∈ writersFor (m.rob.window.take k) i ∨ (m.fetch.timesOf q).write.isSome = true

theorem Machine.Reads.of_map {m m' : Machine} {k : Nat} {i : Instruction} {sources : List InstanceId}
    (h : m.Reads k i sources) {u : Slot → Slot} (hu : ∀ s ∈ m.rob.window, s.SameRole (u s))
    (hwindow : m'.rob.window = m.rob.window.map u) (hkeeps : KeepsWrites m.fetch.timesOf m'.fetch.timesOf) :
    m'.Reads k i sources := by
  have hsame : writersFor (m'.rob.window.take k) i = writersFor (m.rob.window.take k) i := by
    rw [hwindow, ← List.map_take, writersFor_map fun s hs => hu s (List.take_subset k _ hs)]
  refine ⟨hsame ▸ h.planned, fun q hq => ?_⟩
  rw [hsame]
  refine (h.written q hq).imp_right fun hsome => ?_
  obtain ⟨w, hw⟩ := Option.isSome_iff_exists.1 hsome
  rw [hkeeps q w hw, Option.isSome_some]

/-- Between two turns: `plan` has the sources of every version, and `run` says of each station up to which cycle
it has had its turns to execute. -/
structure OnTime (code : List Instruction) (plan : InstanceId → List InstanceId) (run : Nat → Nat)
    (m : Machine) : Prop where
  shown : ∀ id t, m.Shows id t → ∀ i, code[id.position]? = some i →
    t.Punctual m.fetch.timesOf (plan id) i.opcode.latency
  past : ∀ q w, (m.fetch.timesOf q).write = some w → w ≤ m.cycle
  working : ∀ i st k s v, m.Mans i st k s v →
    Progress m.fetch.timesOf (plan v.id) v.instr.opcode.latency (run i) st.remaining s.times
  reads : ∀ i st k s v, m.Mans i st k s v → m.Reads k v.instr (plan v.id)

/-- What has been issued before keeps its sources, and what is issued now gets them. -/
def Machine.Plans (m m' : Machine) (plan plan' : InstanceId → List InstanceId) : Prop :=
  ∀ id i, (m'.fetch.timesOf id).issue = some i →
    (m.fetch.timesOf id).issue = some i ∧ plan' id = plan id ∨
    i = m.cycle ∧ (m.fetch.timesOf id).issue = none ∧
      ∃ v, m.fetch.next? = some v ∧ v.id = id ∧ plan' id = writersFor m.rob.window v.instr

namespace OnTime

variable {code : List Instruction} {plan : InstanceId → List InstanceId} {run : Nat → Nat} {m m' : Machine}
  {c i k : Nat} {st : Station} {s : Slot} {v : Instance} {tag : Tag} {result : Word}

theorem start (hw : m.rob.window = []) (hf : m.fetch = .ofCode code) : OnTime code plan run m where
  shown id t ht i _ := by
    have hnone : t = .none := by
      rcases ht with rfl | ⟨s, hs, -⟩
      · rw [hf, Fetch.timesOf_ofCode]
      · simp [hw] at hs
    rw [hnone]
    exact ⟨nofun, nofun, nofun, nofun⟩
  past q w hq := by simp [hf, Fetch.timesOf_ofCode, Times.none] at hq
  working i st k s v hm := absurd hm.mem (by simp [hw])
  reads i st k s v hm := absurd hm.mem (by simp [hw])

theorem of_core (h : OnTime code plan run m) (hcore : SameCore m m') (hcycle : m.cycle ≤ m'.cycle) :
    OnTime code plan run m' where
  shown id t ht := by
    rw [hcore.fetch]
    rw [Shows, hcore.fetch, hcore.rob] at ht
    exact h.shown id t ht
  past q w hw := Nat.le_trans (h.past q w (hcore.fetch ▸ hw)) hcycle
  working i st k s v hm := by
    rw [hcore.fetch]
    exact h.working i st k s v (hm.of_core hcore)
  reads i st k s v hm := by
    have hreads := h.reads i st k s v (hm.of_core hcore)
    exact ⟨hcore.rob ▸ hreads.planned, hcore.rob ▸ hcore.fetch ▸ hreads.written⟩

theorem of_run (h : OnTime code plan run m) {run' : Nat → Nat}
    (hrun : ∀ i st, m.stations.stations[i]? = some st → run' i = run i) : OnTime code plan run' m :=
  { h with working := fun i st k s v hm => hrun i st hm.station ▸ h.working i st k s v hm }

/-! ### What a turn shows -/

/-- When what is on record changes for one version at most, nothing else shows anew. -/
theorem shows_before {id : InstanceId} {times : Times} (hbook : m'.fetch.timesOf = m.fetch.timesOf ∨
      m'.fetch.timesOf = Function.update m.fetch.timesOf id times)
    (hwindow : ∀ u ∈ m'.rob.window, u.occupant = some id ∧ u.times = times ∨ u.occupant ≠ some id ∧
      ∃ w ∈ m.rob.window, w.occupant = u.occupant ∧ w.times = u.times)
    {q : InstanceId} {t : Times} (ht : m'.Shows q t) : q = id ∧ t = times ∨ m.Shows q t := by
  rcases ht with rfl | ⟨u, hu, ho, rfl⟩
  · rcases hbook with hbook | hbook
    · exact .inr (.inl (by rw [hbook]))
    · rw [hbook, Function.update_apply]
      split
      · next he => exact .inl ⟨he, rfl⟩
      · exact .inr (.inl rfl)
  · rcases hwindow u hu with ⟨hou, htimes⟩ | ⟨-, w, hw, how, htimes⟩
    · exact .inl ⟨(Option.some.inj (hou.symm.trans ho)).symm, htimes⟩
    · exact .inr (.inr ⟨w, hw, how.trans ho, htimes⟩)

theorem shown_of (h : OnTime code plan run m) {id : InstanceId} {times : Times}
    (hkeeps : KeepsWrites m.fetch.timesOf m'.fetch.timesOf)
    (hshows : ∀ q t, m'.Shows q t → q = id ∧ t = times ∨ m.Shows q t)
    (hnew : ∀ i, code[id.position]? = some i →
      times.Punctual m'.fetch.timesOf (plan id) i.opcode.latency) :
    ∀ q t, m'.Shows q t → ∀ i, code[q.position]? = some i →
      t.Punctual m'.fetch.timesOf (plan q) i.opcode.latency := by
  intro q t ht i hi
  rcases hshows q t ht with ⟨rfl, rfl⟩ | ht
  · exact hnew i hi
  · exact (h.shown q t ht i hi).mono hkeeps

/-- What is on record for a version that a station works for is punctual. -/
theorem punctual (h : OnTime code plan run m) (hcoh : Coherent code m)
    (current : m.fetch.current? v.id.position = some v) {t : Times} (ht : m.Shows v.id t) :
    t.Punctual m.fetch.timesOf (plan v.id) v.instr.opcode.latency :=
  h.shown v.id t ht v.instr (hcoh.order.orderly.instr_current current)

/-- A station has its operands when all the sources have written. -/
theorem isReady_iff (h : OnTime code plan run m) (hd : Documented code m) (hm : m.Mans i st k s v) :
    st.isReady = true ↔ ∀ q ∈ plan v.id, (m.fetch.timesOf q).write.isSome = true := by
  have hwriter : ∀ r t, lastWriter (m.rob.window.take k) r = some t →
      t ∈ m.rob.window ∧ t.isLive = true := fun r t hl =>
    ⟨List.take_subset _ _ (mem_of_lastWriter hl).1, (Bool.and_eq_true_iff.1 (mem_of_lastWriter hl).2).1⟩
  rw [hm.isReady_iff hd.coherent]
  constructor
  · intro hready q hq
    rcases (h.reads i st k s v hm).written q hq with hq | hq
    · obtain ⟨r, hr, t, hl, ho⟩ := mem_writersFor.1 hq
      rw [hd.isSome_write (hwriter r t hl).1 (hwriter r t hl).2 ho, hready r hr t hl]
    · exact hq
  · intro hwritten r hr t hl
    obtain ⟨w, ho, -⟩ := hd.coherent.exists_current (hwriter r t hl).1 (hwriter r t hl).2
    rw [← hd.isSome_write (hwriter r t hl).1 (hwriter r t hl).2 ho]
    exact hwritten w.id ((h.reads i st k s v hm).planned (mem_writersFor.2 ⟨r, hr, t, hl, ho⟩))

/-! ### Write result -/

/-- A station that is done has had its last turn to execute. -/
theorem executeDone_eq (h : OnTime code plan run m) (hd : Documented code m)
    (given : m.Gives i k st s v tag result m') : (m.fetch.timesOf v.id).executeDone = some (run i) := by
  obtain ⟨a, x, d, hv, hs⟩ := hd.times_given given
  obtain ⟨y, hy, hdone⟩ := (h.punctual hd.coherent given.current (.inl rfl)).done d (by rw [hv])
  have hlatency := v.instr.opcode.latency_ne_zero
  cases h.working i st k s v given.mans with
  | waits _ execute => simp [hs, hv] at execute
  | runs execute _ left =>
    rw [hs, hy, Option.some.injEq] at execute
    rw [given.last] at left
    rw [hv, Option.some.injEq]
    omega

theorem gives (h : OnTime code plan (fun _ => c) m) (hd : Documented code m) (hcycle : m.cycle = c + 1)
    (given : m.Gives i k st s v tag result m') : OnTime code plan (fun _ => c) m' := by
  have hbook := hd.gives given
  obtain ⟨a, x, d, hv, hs⟩ := hd.times_given given
  have hkeeps : KeepsWrites m.fetch.timesOf m'.fetch.timesOf := by
    intro q w hw
    rw [hbook, Function.update_of_ne (by rintro rfl; simp [hv] at hw)]
    exact hw
  have hnew : ∀ q w, (m'.fetch.timesOf q).write = some w → (m.fetch.timesOf q).write = some w ∨ w = c + 1 := by
    intro q w hw
    rw [hbook, Function.update_apply] at hw
    split at hw
    · exact .inr (hcycle ▸ (Option.some.inj hw).symm)
    · exact .inl hw
  have hheld : (s.holding m.cycle result).times = { m.fetch.timesOf v.id with write := some m.cycle } := by
    rw [Slot.holding, hs]
  have hwindow := Dated.revised (fun t ht ho =>
    hd.coherent.slot_of_occupant ht given.toAwaits.mem (ho.trans given.occupant.symm))
    (g := Slot.holding m.cycle result) rfl
  rw [← given.window, hheld] at hwindow
  refine
    { shown := h.shown_of hkeeps (fun q t => shows_before (.inr hbook) hwindow) fun j hj => ?_
      past := fun q w hw => ?_, working := fun j st' l u w hm => ?_, reads := fun j st' l u w hm => ?_ }
  · have hpunctual := (h.shown v.id _ (.inl rfl) j hj).mono hkeeps
    refine ⟨hpunctual.start, hpunctual.done, fun w hw => ⟨c, h.executeDone_eq hd given, ?_⟩, fun w hw => ?_⟩
    · rw [← Option.some.inj hw, hcycle]
    · simp [hv] at hw
  · rw [given.move.steady.cycle]
    rcases hnew q w hw with hw | rfl
    · exact h.past q w hw
    · omega
  · obtain ⟨-, -, before, hbefore, rfl⟩ := Mans.of_gives hd.coherent given hm
    exact (h.working j before l u w hbefore).mono fun q w hw => (hnew q w hw).imp_right (by omega)
  · obtain ⟨-, -, before, hbefore, -⟩ := Mans.of_gives hd.coherent given hm
    exact (h.reads j before l u w hbefore).of_map given.arrives.sameRole given.window hkeeps

theorem clears (h : OnTime code plan run m) (hd : Documented code m) {b : Nat} (cleared : m.Clears b m') :
    OnTime code plan run m' := by
  have hbook := hd.clears cleared
  have hshows : ∀ id t, m'.Shows id t → m.Shows id t := by
    rintro id t (rfl | ⟨u, hu, ho, rfl⟩)
    · exact .inl (by rw [hbook])
    · rw [cleared.window] at hu
      obtain ⟨w, hw, rfl⟩ := List.mem_map.1 hu
      rw [Sequenced.occupant_cancelAfter] at ho
      exact .inr ⟨w, hw, ho, (w.times_cancelAfter b).symm⟩
  -- whoever is left to work reads from slots that are left alone
  have hmans : ∀ i st k s v, m'.Mans i st k s v →
      m.Mans i st k s v ∧ m'.rob.window.take k = m.rob.window.take k := by
    intro i st k s v hm
    obtain ⟨hbefore, hle⟩ := hm.of_clears hd.coherent cleared
    refine ⟨hbefore, ?_⟩
    have hafter : s.isAfter b = false := by simp [Slot.isAfter, hm.occupant, hle]
    have htake := congrArg (List.take k)
      (hd.coherent.order.take_cancelAfter hbefore.slot hbefore.isLive hafter)
    rwa [List.take_take, List.take_take, Nat.min_eq_left (Nat.le_succ k), ← cleared.window] at htake
  refine
    { shown := ?_, past := ?_, working := fun i st k s v hm => ?_, reads := fun i st k s v hm => ?_ }
  · rw [hbook]
    exact fun id t ht => h.shown id t (hshows id t ht)
  · rw [hbook, cleared.move.steady.cycle]
    exact h.past
  · rw [hbook]
    exact h.working i st k s v (hmans i st k s v hm).1
  · obtain ⟨hbefore, htake⟩ := hmans i st k s v hm
    have hreads := h.reads i st k s v hbefore
    exact ⟨htake.symm ▸ hreads.planned, htake.symm ▸ hbook.symm ▸ hreads.written⟩

theorem writeTurn (h : OnTime code plan (fun _ => c) m) (hd : Documented code m) (hcycle : m.cycle = c + 1)
    (turn : m.WriteTurn i m') : OnTime code plan (fun _ => c) m' := by
  cases turn with
  | idle => exact h
  | gives given => exact h.gives hd hcycle given
  | clears given cleared => exact (h.gives hd hcycle given).clears (hd.turn (.write (.gives given))) cleared

/-! ### Execute -/

/-- The first cycle of an execution is that in which the last source has written; any other is one less to go. -/
theorem advances (h : OnTime code plan run m) (hd : Documented code m) (hcycle : m.cycle = c + 1)
    (ran : m.Runs i k st s v m') (hi : run i = c) {a x : Nat} (issue : s.times.issue = some a)
    (hx : x = s.times.execute.getD m.cycle) : Starts m.fetch.timesOf (plan v.id) a x ∧ x ≤ c + 1 ∧
      st.remaining - 1 + (c + 1) + 1 = x + v.instr.opcode.latency := by
  have hmore := ran.more
  cases h.working i st k s v ran.mans with
  | @waits a' issue' execute issued whole starved =>
    obtain rfl := Option.some.inj (issue.symm.trans issue')
    rw [execute, Option.getD_none, hcycle] at hx
    have hwritten := (h.isReady_iff hd ran.mans).1 ran.ready
    refine ⟨⟨hwritten, ?_, ?_⟩, Nat.le_of_eq hx, by omega⟩
    · rcases starved with hrun | ⟨q, hq, hlate⟩
      · exact .inl (by omega)
      · obtain ⟨w, hw⟩ := Option.isSome_iff_exists.1 (hwritten q hq)
        have hpast := h.past q w hw
        have hlate := hlate w hw
        exact .inr ⟨q, hq, by rw [hw, hx]; congr 1; omega⟩
    · rintro w (rfl | ⟨q, -, hw⟩)
      · omega
      · have hpast := h.past q w hw
        omega
  | @runs y execute begun left =>
    rw [execute, Option.getD_some] at hx
    subst hx
    have hshown := h.punctual hd.coherent ran.current (.inr ⟨s, ran.toAwaits.mem, ran.occupant, rfl⟩)
    obtain ⟨a', issue', hstarts⟩ := hshown.start x execute
    obtain rfl := Option.some.inj (issue.symm.trans issue')
    exact ⟨hstarts, by omega, by omega⟩

theorem runs (h : OnTime code plan run m) (hd : Documented code m) (hcycle : m.cycle = c + 1)
    (ran : m.Runs i k st s v m') (hi : run i = c) {run' : Nat → Nat} (hi' : run' i = c + 1)
    (hne : ∀ j, j ≠ i → run' j = run j) : OnTime code plan run' m' := by
  obtain ⟨a, hv, issue, hs⟩ := hd.times_ran ran
  obtain ⟨hstarts, hle, hleft⟩ := h.advances hd hcycle ran hi issue rfl
  have hsame : ∀ q, (m'.fetch.timesOf q).write = (m.fetch.timesOf q).write := fun q => by
    rw [hd.executeTurn (.runs ran) q]
  have hkeeps : KeepsWrites m.fetch.timesOf m'.fetch.timesOf := .of_eq hsame
  have hrole := ran.sameRole hd.coherent
  have hwindow := Dated.revised (fun t ht ho =>
    hd.coherent.slot_of_occupant ht ran.toAwaits.mem (ho.trans ran.occupant.symm))
    (s.ran_sameRole ran.isLive m.cycle st.remaining).occupant
  rw [← ran.window] at hwindow
  have hbook := hd.runs ran
  refine
    { shown := h.shown_of hkeeps (fun q t => shows_before ?_ hwindow) fun j hj => ?_
      past := fun q w hw => ?_, working := fun j st' l u w hm => ?_, reads := fun j st' l u w hm => ?_ }
  · split at hbook
    · exact .inr hbook
    · exact .inl hbook
  · rw [hd.coherent.order.orderly.instr_current ran.current, Option.some.injEq] at hj
    rw [hs, ← hj]
    refine ⟨fun y hy => ⟨a, rfl, ?_⟩, fun d hdone => ⟨_, rfl, ?_⟩, by simp, by simp⟩
    · exact Option.some.inj hy ▸ hstarts.mono hkeeps
    · simp only [Option.ite_none_right_eq_some, Option.some.injEq] at hdone
      omega
  · rw [ran.moves.steady.cycle]
    exact h.past q w (hsame q ▸ hw)
  · rcases Mans.of_runs hd.coherent ran hm with ⟨rfl, rfl, rfl, rfl, rfl⟩ | ⟨hj, -, hbefore⟩
    · have hlatency : Instance.instr (if st.remaining = 1 then
          Sequenced.moved .executed (s.ran m.cycle st.remaining).times v else v) = v.instr := by
        split <;> rfl
      rw [hlatency]
      exact .runs (by rw [hs]) (by omega) (hi' ▸ hleft)
    · rw [hne j hj]
      exact (h.working j st' l u w hbefore).mono fun q w hw => .inl (hsame q ▸ hw)
  · have hreads : ∀ w' : Instance, w'.id = v.id → w'.instr = v.instr →
        m'.Reads k w'.instr (plan w'.id) := fun w' hid hinstr =>
      hid ▸ hinstr ▸ (h.reads i st k s v ran.mans).of_map hrole ran.window hkeeps
    rcases Mans.of_runs hd.coherent ran hm with ⟨rfl, rfl, rfl, rfl, rfl⟩ | ⟨hj, -, hbefore⟩
    · exact hreads _ (by split <;> rfl) (by split <;> rfl)
    · exact (h.reads j st' l u w hbefore).of_map hrole ran.window hkeeps

/-- A station that lacks an operand has not begun. -/
theorem progress_of_unready (h : OnTime code plan run m) (hd : Documented code m) (hm : m.Mans i st k s v)
    (unready : st.isReady = false) (hi : run i ≤ c) :
    Progress m.fetch.timesOf (plan v.id) v.instr.opcode.latency c st.remaining s.times := by
  have hlacks : ¬∀ q ∈ plan v.id, (m.fetch.timesOf q).write.isSome = true := by
    rw [← h.isReady_iff hd hm, unready]
    simp
  cases h.working i st k s v hm with
  | waits issue execute issued whole =>
    push Not at hlacks
    obtain ⟨q, hq, hlacks⟩ := hlacks
    refine .waits issue execute (Nat.le_trans issued hi) whole (.inr ⟨q, hq, fun w hw => ?_⟩)
    simp [hw] at hlacks
  | runs execute =>
    have hshown := h.punctual hd.coherent hm.current (.inr ⟨s, hm.mem, hm.occupant, rfl⟩)
    obtain ⟨a, -, hstarts⟩ := hshown.start _ execute
    exact absurd hstarts.written hlacks

theorem executeTurn (h : OnTime code plan run m) (hd : Documented code m) (hcycle : m.cycle = c + 1)
    (hmore : ∀ st, m.stations.stations[i]? = some st → st.busy = true → st.remaining ≠ 0)
    (turn : m.ExecuteTurn i m') (hi : run i = c) {run' : Nat → Nat} (hi' : run' i = c + 1)
    (hne : ∀ j, j ≠ i → run' j = run j) : OnTime code plan run' m' := by
  cases turn with
  | @rests st station done =>
    refine { h with working := fun j st' k s v hm => ?_ }
    by_cases hj : j = i
    · subst hj
      obtain rfl := Option.some.inj (station.symm.trans hm.station)
      rcases done with idle | last
      · simp [hm.busy] at idle
      · exact absurd last (hmore st station hm.busy)
    · rw [hne j hj]
      exact h.working j st' k s v hm
  | @waits st station busy more unready =>
    refine of_core (m := m) { h with working := fun j st' k s v hm => ?_ }
      ⟨rfl, rfl, rfl, rfl, rfl, rfl, rfl, rfl⟩ (Nat.le_refl _)
    by_cases hj : j = i
    · subst hj
      obtain rfl := Option.some.inj (station.symm.trans hm.station)
      exact hi' ▸ h.progress_of_unready hd hm unready (by omega)
    · rw [hne j hj]
      exact h.working j st' k s v hm
  | runs ran => exact h.runs hd hcycle ran hi hi' hne

/-! ### Issue -/

/-- The version that enters shows its issue alone, and nothing else is new. -/
theorem shows_of_enters (hd : Documented code m) {left : Operand} {right : Option Operand}
    (entered : m.Enters v i st left right tag m') {q : InstanceId} {t : Times} (ht : m'.Shows q t) :
    q = v.id ∧ t = { Times.none with issue := some m.cycle } ∨ q ≠ v.id ∧ m.Shows q t := by
  rcases ht with rfl | ⟨u, hu, ho, rfl⟩
  · rw [(hd.enters entered).2, Function.update_apply]
    split
    · next he => exact .inl ⟨he, rfl⟩
    · next hne => exact .inr ⟨hne, .inl rfl⟩
  · rw [entered.window] at hu
    rcases List.mem_append.1 hu with hu | hu
    · refine .inr ⟨?_, .inr ⟨u, hu, ho, rfl⟩⟩
      rintro rfl
      exact hd.coherent.order.occupant_ne_next entered.next u hu ho
    · rw [List.mem_singleton.1 hu] at ho ⊢
      exact .inl ⟨(Option.some.inj ho).symm, rfl⟩

/-- There is one station more at work, for the last slot. -/
theorem mans_of_enters (hd : Documented code m) {left : Operand} {right : Option Operand}
    (entered : m.Enters v i st left right tag m') {j : Nat} {st' : Station} {w : Instance}
    (hm : m'.Mans j st' k s w) :
    k = m.rob.window.length ∧ st'.remaining = v.instr.opcode.latency ∧
        s.times = { Times.none with issue := some m.cycle } ∧ w.id = v.id ∧ w.instr = v.instr ∨
      w.id ≠ v.id ∧ m.Mans j st' k s w ∧ m'.rob.window.take k = m.rob.window.take k := by
  rcases Mans.of_enters hd.coherent entered hm with ⟨-, rfl, rfl, rfl, rfl⟩ | ⟨-, hne, hbefore⟩
  · exact .inl ⟨rfl, rfl, rfl, rfl, rfl⟩
  · have hlt := (List.getElem?_eq_some_iff.1 hbefore.slot).1
    refine .inr ⟨hne, hbefore, ?_⟩
    rw [entered.window, List.take_append_of_le_length (Nat.le_of_lt hlt)]

theorem enters (h : OnTime code plan (fun _ => m.cycle) m) (hd : Documented code m) {left : Operand}
    {right : Option Operand} (entered : m.Enters v i st left right tag m') :
    OnTime code (Function.update plan v.id (writersFor m.rob.window v.instr)) (fun _ => m.cycle) m' := by
  have hsame : ∀ q, (m'.fetch.timesOf q).write = (m.fetch.timesOf q).write := fun q => by
    rw [hd.issueTurn (.enters entered) q]
  refine
    { shown := fun q t ht j hj => ?_, past := fun q w hw => ?_, working := fun j st' k s w hm => ?_
      reads := fun j st' k s w hm => ?_ }
  · rcases shows_of_enters hd entered ht with ⟨rfl, rfl⟩ | ⟨hne, ht⟩
    · exact ⟨nofun, nofun, nofun, nofun⟩
    · rw [Function.update_of_ne hne]
      exact (h.shown q t ht j hj).mono (.of_eq hsame)
  · rw [entered.move.steady.cycle]
    exact h.past q w (hsame q ▸ hw)
  · rcases mans_of_enters hd entered hm with ⟨-, hwhole, htimes, -, hinstr⟩ | ⟨hne, hbefore, -⟩
    · rw [htimes, hinstr]
      exact .waits rfl rfl (Nat.le_refl _) hwhole (.inl rfl)
    · rw [Function.update_of_ne hne]
      exact (h.working j st' k s w hbefore).mono fun q w hw => .inl (hsame q ▸ hw)
  · rcases mans_of_enters hd entered hm with ⟨rfl, -, -, hid, hinstr⟩ | ⟨hne, hbefore, htake⟩
    · have htake : m'.rob.window.take m.rob.window.length = m.rob.window := by
        rw [entered.window, List.take_left]
      rw [hid, hinstr, Function.update_self]
      exact ⟨by rw [htake]; exact List.Subset.refl _, fun q hq => .inl (by rwa [htake])⟩
    · have hreads := h.reads j st' k s w hbefore
      rw [Function.update_of_ne hne]
      refine ⟨htake.symm ▸ hreads.planned, fun q hq => ?_⟩
      rw [htake, hsame]
      exact hreads.written q hq

theorem issueTurn (h : OnTime code plan (fun _ => m.cycle) m) (hd : Documented code m) (turn : m.IssueTurn m') :
    ∃ plan', OnTime code plan' (fun _ => m.cycle) m' ∧ m.Plans m' plan plan' := by
  cases turn with
  | ended => exact ⟨plan, h, fun _ _ hi => .inl ⟨hi, rfl⟩⟩
  | stalls =>
    exact ⟨plan, h.of_core ⟨rfl, rfl, rfl, rfl, rfl, rfl, rfl, rfl⟩ (Nat.le_refl _), fun _ _ hi => .inl ⟨hi, rfl⟩⟩
  | enters entered =>
    obtain ⟨hnone, hbook⟩ := hd.enters entered
    refine ⟨_, h.enters hd entered, fun id i hi => ?_⟩
    rw [hbook, Function.update_apply] at hi
    rw [Function.update_apply]
    split at hi
    · next he =>
      rw [if_pos he]
      exact .inr ⟨(Option.some.inj hi).symm, by rw [he, hnone]; rfl, _, entered.next, he.symm, rfl⟩
    · next hne =>
      rw [if_neg hne]
      exact .inl ⟨hi, rfl⟩

/-! ### Commit -/

/-- The slot that leaves has its result, if it is read from at all. -/
theorem reads_of_leaves (hd : Documented code m) {rest : List Slot} (left : m.Leaves s rest m')
    (hready : s.isLive = true → s.ready = true)
    (hsame : ∀ q, (m'.fetch.timesOf q).write = (m.fetch.timesOf q).write) {j : Instruction}
    {sources : List InstanceId} (hreads : m.Reads (k + 1) j sources) : m'.Reads k j sources := by
  have htake : m.rob.window.take (k + 1) = s :: m'.rob.window.take k := by
    rw [left.head, left.window, List.take_succ_cons]
  refine ⟨List.Subset.trans (htake ▸ writersFor_subset_cons) hreads.planned, fun q hq => ?_⟩
  rw [hsame]
  refine (hreads.written q hq).elim (fun hq => ?_) .inr
  rw [htake] at hq
  refine (mem_writersFor_cons hq).imp_right fun ⟨live, occupant⟩ => ?_
  rw [hd.isSome_write left.mem_head live occupant, hready live]

theorem commitTurn (h : OnTime code plan run m) (hd : Documented code m) (turn : m.CommitTurn m') :
    OnTime code plan run m' := by
  have hsame : ∀ q, (m'.fetch.timesOf q).write = (m.fetch.timesOf q).write := fun q => by
    rw [hd.commitTurn turn q]
  cases turn with
  | empty | early => exact h
  | discards left move _ dead fetch =>
    refine
      { shown := fun q t ht => ?_, past := ?_
        working := fun j st' k s v hm => fetch ▸ h.working j st' (k + 1) s v (hm.of_leaves left)
        reads := fun j st' k s v hm => reads_of_leaves hd left (by simp [dead]) hsame
          (h.reads j st' (k + 1) s v (hm.of_leaves left)) }
    · rw [Shows, fetch] at ht
      rw [fetch]
      exact h.shown q t (ht.imp_right fun ⟨u, hu, hshows⟩ => ⟨u, left.mem hu, hshows⟩)
    · rw [fetch, move.steady.cycle]
      exact h.past
  | @commits s rest v m' left move _ live may occupant current _ fetch =>
    obtain ⟨ready, hwrite⟩ := Bool.and_eq_true_iff.1 may
    obtain ⟨hs, hbook⟩ := hd.commits left live ready occupant current fetch
    have hkeeps : KeepsWrites m.fetch.timesOf m'.fetch.timesOf := .of_eq hsame
    have hshows : ∀ q t, m'.Shows q t → q = v.id ∧ t = _ ∨ m.Shows q t := fun q t =>
      shows_before (.inr hbook) fun u hu =>
        .inr ⟨occupant ▸ left.occupant_ne hd.coherent hu, u, left.mem hu, rfl, rfl⟩
    refine
      { shown := h.shown_of hkeeps hshows fun j hj => ?_, past := fun q w hw => ?_
        working := fun j st' k s v hm => (h.working j st' (k + 1) s v (hm.of_leaves left)).mono
          fun q w hw => .inl (hsame q ▸ hw)
        reads := fun j st' k s v hm => reads_of_leaves hd left (fun _ => ready) hsame
          (h.reads j st' (k + 1) s v (hm.of_leaves left)) }
    · have hpunctual := (h.shown v.id _ (.inl rfl) j hj).mono hkeeps
      refine ⟨hpunctual.start, hpunctual.done, hpunctual.write, fun c hc => ?_⟩
      obtain ⟨w, hw, hlt⟩ := (Option.any_eq_true ..).1 (hs ▸ hwrite)
      exact ⟨w, hw, by simpa [← Option.some.inj hc] using hlt⟩
    · rw [move.steady.cycle]
      exact h.past q w (hsame q ▸ hw)

end OnTime

end OutOfOrder
