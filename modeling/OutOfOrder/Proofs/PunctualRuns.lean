import OutOfOrder.Proofs.Punctuality

/-!
Whole runs: every version keeps to the times of its operation and to those of the versions that it reads from, no two
are issued or commit in one cycle, and no more than one slot is freed.
-/

set_option autoImplicit false

namespace OutOfOrder

open Machine

namespace OnTime

variable {code : List Instruction} {plan : InstanceId → List InstanceId} {m m' : Machine} {c : Nat}

theorem writeResults (h : OnTime code plan (fun _ => c) m) (hd : Documented code m) (hcycle : m.cycle = c + 1)
    (hm : m.writeResults = .ok m') : OnTime code plan (fun _ => c) m' := by
  have hphase := hd.writeResults_keeps (fun _ n => OnTime code plan (fun _ => c) n ∧ n.cycle = c + 1) ?_
    ⟨h, hcycle⟩ hm
  · exact hphase.2.1
  · intro i rest n n' hn ⟨hkept, hc⟩ turn
    exact ⟨hkept.writeTurn hn hc turn, turn.moves.steady.cycle.trans hc⟩

theorem execute (h : OnTime code plan (fun _ => c) m) (hd : Documented code m) (hcycle : m.cycle = c + 1)
    (hmore : ∀ (i : Nat) (st : Station), m.stations.stations[i]? = some st → st.busy = true → st.remaining ≠ 0)
    (hm : m.execute = .ok m') : OnTime code plan (fun _ => c + 1) m' := by
  -- the stations in `rest` are a cycle behind the others, and none of them is done
  have hphase := hd.execute_keeps (fun rest n => OnTime code plan (fun j => if j ∈ rest then c else c + 1) n ∧
    n.cycle = c + 1 ∧ ∀ j ∈ rest, ∀ st, n.stations.stations[j]? = some st → st.busy = true → st.remaining ≠ 0) ?_
    ⟨h.of_run fun i st hi => ?_, hcycle, fun j _ => hmore j⟩ hm
  · exact hphase.2.1.of_run fun i _ _ => (if_neg List.not_mem_nil).symm
  · intro i rest n n' hn hi ⟨hkept, hc, hleft⟩ turn
    refine ⟨hkept.executeTurn hn hc (hleft i (List.mem_cons_self ..)) turn (if_pos (List.mem_cons_self ..))
      (if_neg hi) fun j hj => ?_, turn.moves.steady.cycle.trans hc, fun j hj => ?_⟩
    · simp only [List.mem_cons, hj, false_or]
    · rw [turn.others fun he => hi (he ▸ hj)]
      exact hleft j (List.mem_cons_of_mem i hj)
  · have hlt : i < m.stations.size := (Array.getElem?_eq_some_iff.1 hi).1
    exact if_pos (List.mem_range.2 hlt)

end OnTime

/-- The machine that is about to issue in the next cycle. -/
def Machine.beforeIssue (m : Machine) : Except Halt Machine := do
  let m ← m.tick.writeResults
  m.execute

/-- In the next cycle the version is at the cursor when it is time to issue, and it reads from the sources. -/
def Machine.ReadsNext (m : Machine) (id : InstanceId) (sources : List InstanceId) : Prop :=
  ∃ n v, m.beforeIssue = .ok n ∧ n.fetch.next? = some v ∧ v.id = id ∧
    sources = writersFor n.rob.window v.instr

theorem OnTime.cycle {code : List Instruction} {plan : InstanceId → List InstanceId} {m m' : Machine}
    (h : OnTime code plan (fun _ => m.cycle) m) (hd : Documented code m) (hm : m.runCycle = .ok m') :
    ∃ plan', OnTime code plan' (fun _ => m'.cycle) m' ∧ ∀ id i, (m'.fetch.timesOf id).issue = some i →
      (m.fetch.timesOf id).issue = some i ∧ plan' id = plan id ∨
      i = m.cycle + 1 ∧ (m.fetch.timesOf id).issue = none ∧ m.ReadsNext id (plan' id) := by
  obtain ⟨written, executed, issued, last, hpasses⟩ := hd.passes hm
  obtain ⟨hwritten, hexecuted, hissued⟩ := hpasses.documented
  obtain ⟨hcw, hcx, hci, hc⟩ := hpasses.cycles
  have hw := (h.of_core m.sameCore_tick (Nat.le_succ _)).writeResults hpasses.ticked rfl hpasses.writes
  have hx := hw.execute hwritten hcw (fun i st hi hb =>
    writeResults_leaves hpasses.ticked.coherent hpasses.writes hi hb) hpasses.executes
  obtain ⟨plan', hi, hplans⟩ := OnTime.issueTurn (hcx.symm ▸ hx) hexecuted hpasses.issues
  have hl := hi.commitTurn hissued hpasses.commits
  have hbefore : m.beforeIssue = .ok executed := by
    simp [beforeIssue, hpasses.writes, hpasses.executes, bind, Except.bind]
  refine ⟨plan', ?_, fun id i hid => ?_⟩
  · rw [hc, ← hcx, hpasses.settles]
    refine hl.of_core last.sameCore_settle (Nat.le_of_eq (cycle_settle last).symm)
  · rw [hpasses.issue_eq] at hid
    rw [← (hpasses.sameEnds id).1, ← hcx]
    refine (hplans id i hid).imp_right fun ⟨hnow, hnone, v, hnext, hv, hsources⟩ => ?_
    exact ⟨hnow, hnone, executed, v, hbefore, hnext, hv, hsources⟩

/-! ### Slots -/

/-- At most one slot is added, at the end, and at most the oldest is freed, for a commit or without. -/
def Machine.FreesOne (m m' : Machine) : Prop :=
  ∃ added : List (Option InstanceId), added.length ≤ 1 ∧
    (m'.rob.window.map Slot.occupant = m.rob.window.map Slot.occupant ++ added ∧ m'.commits = m.commits ∨
    ∃ freed, freed :: m'.rob.window.map Slot.occupant = m.rob.window.map Slot.occupant ++ added ∧
      (m'.commits = m.commits ∨ ∃ id, freed = some id ∧ m'.commits = m.commits.push id))

namespace Machine

variable {code : List Instruction} {m m' : Machine} {i : Nat}

theorem map_occupant_of_sameRole {w : List Slot} {u : Slot → Slot} (hu : ∀ s ∈ w, s.SameRole (u s)) :
    (w.map u).map Slot.occupant = w.map Slot.occupant := by
  rw [List.map_map]
  exact List.map_congr_left fun s hs => (hu s hs).occupant

/-- No slot comes or goes with the results. -/
theorem WriteTurn.sameSlots (turn : m.WriteTurn i m') :
    m'.rob.window.map Slot.occupant = m.rob.window.map Slot.occupant ∧ m'.commits = m.commits := by
  have hgives : ∀ {k st s v tag result middle}, m.Gives i k st s v tag result middle →
      middle.rob.window.map Slot.occupant = m.rob.window.map Slot.occupant := fun given => by
    rw [given.window, map_occupant_of_sameRole given.arrives.sameRole]
  cases turn with
  | idle => exact ⟨rfl, rfl⟩
  | gives given => exact ⟨hgives given, given.commits⟩
  | clears given cleared =>
    refine ⟨?_, cleared.commits.trans given.commits⟩
    rw [cleared.window, List.map_map, ← hgives given]
    exact List.map_congr_left fun s _ => Sequenced.occupant_cancelAfter s _

theorem ExecuteTurn.sameSlots (turn : m.ExecuteTurn i m') (h : Coherent code m) :
    m'.rob.window.map Slot.occupant = m.rob.window.map Slot.occupant ∧ m'.commits = m.commits := by
  cases turn with
  | rests | waits => exact ⟨rfl, rfl⟩
  | runs ran => exact ⟨by rw [ran.window, map_occupant_of_sameRole (ran.sameRole h)], ran.commits⟩

theorem runCycle_frees (h : Documented code m) (hm : m.runCycle = .ok m') : m.FreesOne m' := by
  obtain ⟨written, executed, issued, last, hpasses⟩ := h.passes hm
  have hw := (hpasses.ticked.writeResults_keeps (fun _ n =>
    n.rob.window.map Slot.occupant = m.rob.window.map Slot.occupant ∧ n.commits = m.commits)
    (fun i rest n n' _ hk turn => ⟨turn.sameSlots.1.trans hk.1, turn.sameSlots.2.trans hk.2⟩)
    ⟨rfl, rfl⟩ hpasses.writes).2
  have hx := (hpasses.documented.1.execute_keeps (fun _ n =>
    n.rob.window.map Slot.occupant = m.rob.window.map Slot.occupant ∧ n.commits = m.commits)
    (fun i rest n n' hn _ hk turn =>
      ⟨(turn.sameSlots hn.coherent).1.trans hk.1, (turn.sameSlots hn.coherent).2.trans hk.2⟩)
    hw hpasses.executes).2
  have hi : ∃ added : List (Option InstanceId), added.length ≤ 1 ∧
      issued.rob.window.map Slot.occupant = m.rob.window.map Slot.occupant ++ added ∧
      issued.commits = m.commits := by
    cases hpasses.issues with
    | ended | stalls => exact ⟨[], Nat.zero_le 1, hx.1.trans (List.append_nil _).symm, hx.2⟩
    | @enters v i st left right tag issued entered =>
      refine ⟨[some v.id], Nat.le_refl 1, ?_, entered.commits.trans hx.2⟩
      rw [entered.window, List.map_append, hx.1]
      rfl
  obtain ⟨added, hlength, hwindow, hcommits⟩ := hi
  have hcore := last.sameCore_settle
  refine ⟨added, hlength, ?_⟩
  rw [hpasses.settles, hcore.rob, hcore.commits, ← hwindow, ← hcommits]
  cases hpasses.commits with
  | empty | early => exact .inl ⟨rfl, rfl⟩
  | commits left _ _ _ _ occupant _ _ _ commits =>
    refine .inr ⟨_, by rw [left.head, left.window, List.map_cons], .inr ⟨_, occupant, commits⟩⟩
  | discards left _ _ _ _ commits =>
    exact .inr ⟨_, by rw [left.head, left.window, List.map_cons], .inl commits⟩

end Machine

/-- The slots stand in the order of their issues. -/
theorem Documented.issues_increase {code : List Instruction} {m : Machine} (h : Documented code m) {bound : Nat}
    (hi : IssuesApart bound m.fetch) : m.rob.window.Pairwise fun t u =>
      ∃ a b, t.times.issue = some a ∧ u.times.issue = some b ∧ a < b := by
  have hissue : ∀ t ∈ m.rob.window, ∃ id a, t.occupant = some id ∧ t.times.issue = some a ∧
      (m.fetch.timesOf id).issue = some a := by
    intro t ht
    obtain ⟨id, v, ho, hv⟩ := h.coherent.exists_version ht
    obtain ⟨a, ha, -⟩ := h.coherent.aged.issued t ht
    refine ⟨id, a, ho, ha, ?_⟩
    rw [Fetch.timesOf_eq hv, ← (h.dated.slots t ht id v ho hv).issue, ha]
  have hapart : m.rob.window.Pairwise fun t u => t.occupant ≠ u.occupant := List.pairwise_map.1 h.coherent.order.nodup
  refine (h.coherent.aged.sorted.and hapart).imp_of_mem fun ht hu ⟨hsorted, hne⟩ => ?_
  obtain ⟨id, a, hto, hta, hida⟩ := hissue _ ht
  obtain ⟨id', b, huo, hub, hidb⟩ := hissue _ hu
  refine ⟨a, b, hta, hub, ?_⟩
  have hle : a ≤ b := by simpa [hta, hub, notLater] using hsorted
  refine Nat.lt_of_le_of_ne hle ?_
  rintro rfl
  exact hne (by rw [hto, huo, hi.inj id id' a hida hidb])

/-! ### Whole runs -/

namespace Session

/-- One step issues a version that reads from the sources. -/
structure Issues (s s' : Session) (id : InstanceId) (sources : List InstanceId) : Prop where
  stepped : s.step = .ok (s', .ok ())
  unissued : (s.machine.fetch.timesOf id).issue = none
  issued : (s'.machine.fetch.timesOf id).issue = some (s.machine.cycle + 1)
  reads : s.machine.ReadsNext id sources

/-- On the way to this session the version was issued, and it read from the sources. -/
def IssuedFrom (config : Config) (code : List Instruction) (s : Session) (id : InstanceId)
    (sources : List InstanceId) : Prop :=
  ∃ trace before after, Reached config code trace before ∧ before.Issues after id sources ∧
    Relation.ReflTransGen (fun a b => a.step = .ok (b, .ok ())) after s

variable {config : Config} {code : List Instruction} {trace : List Deed} {s s' : Session}

theorem IssuedFrom.step {id : InstanceId} {sources : List InstanceId} (h : s.IssuedFrom config code id sources)
    (hs : s.step = .ok (s', .ok ())) : s'.IssuedFrom config code id sources := by
  obtain ⟨trace, before, after, hreached, hissues, hleads⟩ := h
  exact ⟨trace, before, after, hreached, hissues, hleads.tail hs⟩

theorem Reached.onTime (hc : config.Admitted) (h : Reached config code trace s) :
    ∃ plan, OnTime code plan (fun _ => s.machine.cycle) s.machine ∧
      ∀ id i, (s.machine.fetch.timesOf id).issue = some i → s.IssuedFrom config code id (plan id) := by
  induction h with
  | load hconfig hload =>
    obtain ⟨-, m, hm, he⟩ := load_eq hconfig hload
    have hfresh := fresh_of_initial hc hm
    rw [he]
    refine ⟨fun _ => [], OnTime.start hfresh.window hfresh.fetch, fun id i hi => ?_⟩
    change (m.fetch.timesOf id).issue = some i at hi
    simp [hfresh.fetch, Fetch.timesOf_ofCode, Times.none] at hi
  | @step trace s s' earlier hstep ih =>
    obtain ⟨plan, htime, hplan⟩ := ih
    rcases step_eq hstep with ⟨-, rfl⟩ | ⟨-, m, hm, he⟩
    · exact ⟨plan, htime, hplan⟩
    · obtain ⟨plan', htime', hissued⟩ := htime.cycle (earlier.documented hc) hm
      have hsame : s'.machine.fetch = m.fetch := by
        rw [he]
        rfl
      refine ⟨plan', ?_, fun id i hi => ?_⟩
      · rw [he]
        exact htime'.of_core m.sameCore_drained (Nat.le_refl _)
      · rcases hissued id i (hsame ▸ hi) with ⟨hbefore, hkept⟩ | ⟨rfl, hnone, hreads⟩
        · rw [hkept]
          exact (hplan id i hbefore).step hstep
        · exact ⟨trace, s, s', earlier, ⟨hstep, hnone, hi, hreads⟩, .refl⟩

theorem Reached.apart (hc : config.Admitted) (h : Reached config code trace s) :
    IssuesApart s.machine.cycle s.machine.fetch ∧ CommitsInOrder s.machine.cycle s.machine.fetch := by
  induction h with
  | load hconfig hload =>
    obtain ⟨-, m, hm, he⟩ := load_eq hconfig hload
    rw [he]
    exact ⟨.start (fresh_of_initial hc hm).fetch, .start (fresh_of_initial hc hm).fetch⟩
  | @step trace s s' earlier hstep ih =>
    rcases step_eq hstep with ⟨-, rfl⟩ | ⟨-, m, hm, he⟩
    · exact ih
    · have hissues := ih.1.cycle (earlier.documented hc) hm
      have hcommits := ih.2.cycle (earlier.documented hc) hm
      rw [he]
      exact ⟨hissues, hcommits⟩

theorem Reached.frees (hc : config.Admitted) (h : Reached config code trace s)
    (hs : s.step = .ok (s', .ok ())) : s.machine.FreesOne s'.machine := by
  rcases step_eq hs with ⟨-, rfl⟩ | ⟨-, m, hm, he⟩
  · exact ⟨[], Nat.zero_le 1, .inl ⟨(List.append_nil _).symm, rfl⟩⟩
  · have hfrees := runCycle_frees (h.documented hc) hm
    rw [he]
    exact hfrees

/-- Every version, squashed or not, has the times of its operation. -/
structure KeepsTime (config : Config) (code : List Instruction) (s : Session) : Prop where
  versions : ∀ id v, s.machine.fetch.get? id = some v → ∀ t, s.machine.Shows id t → ∃ sources,
    t.Punctual s.machine.fetch.timesOf sources v.instr.opcode.latency ∧
    ∀ i, t.issue = some i → s.IssuedFrom config code id sources
  issues : ∀ id id' v v' c, s.machine.fetch.get? id = some v → s.machine.fetch.get? id' = some v' →
    v.times.issue = some c → v'.times.issue = some c → id = id'
  commits : ∀ id id' v v' c c', s.machine.fetch.get? id = some v → s.machine.fetch.get? id' = some v' →
    v.times.commit = some c → v'.times.commit = some c' →
    (c = c' → id = id') ∧ (id.position < id'.position → c < c')
  slots : ∀ j k t u, j < k → k < s.machine.rob.capacity →
    s.machine.rob.slots[s.machine.rob.place j]? = some t → s.machine.rob.slots[s.machine.rob.place k]? = some u →
    t.busy = true → u.busy = true → ∃ a b, t.times.issue = some a ∧ u.times.issue = some b ∧ a < b

end Session

/-- With branches or without, the cycles on record are those that the operations take. -/
theorem versions_keep_time {config : Config} {code : List Instruction} {trace : List Deed} {s : Session}
    (hc : config.Admitted) (h : Session.Reached config code trace s) :
    s.KeepsTime config code ∧ ∀ s', s.step = .ok (s', .ok ()) → s.machine.FreesOne s'.machine := by
  have hd := h.documented hc
  have horderly := hd.coherent.order.orderly
  obtain ⟨plan, htime, hplan⟩ := h.onTime hc
  obtain ⟨hissues, hcommits⟩ := h.apart hc
  refine ⟨⟨fun id v hv t ht => ⟨plan id, ?_, fun i hi => ?_⟩, fun id id' v v' c hv hv' hi hi' => ?_,
    fun id id' v v' c c' hv hv' hi hi' => ⟨?_, ?_⟩, fun j k t u hjk hk ht hu hbt hbu => ?_⟩,
    fun s' hs => h.frees hc hs⟩
  · exact htime.shown id t ht v.instr (horderly.id_of_get? hv).2
  · refine hplan id i ?_
    rcases ht with rfl | ⟨u, hu, ho, rfl⟩
    · exact hi
    · rw [Fetch.timesOf_eq hv, ← (hd.dated.slots u hu id v ho hv).issue, hi]
  · rw [← Fetch.timesOf_eq hv] at hi
    rw [← Fetch.timesOf_eq hv'] at hi'
    exact hissues.inj id id' c hi hi'
  · rintro rfl
    rw [← Fetch.timesOf_eq hv] at hi
    rw [← Fetch.timesOf_eq hv'] at hi'
    -- two positions have two commits, and one position has one version that has committed
    have heq : id.position = id'.position := by
      rcases Nat.lt_trichotomy id.position id'.position with hlt | heq | hlt
      · exact absurd (hcommits.lt id id' c c hi hi' hlt) (Nat.lt_irrefl c)
      · exact heq
      · exact absurd (hcommits.lt id' id c c hi' hi hlt) (Nat.lt_irrefl c)
    have hid := (hd.of_commit hi).2
    rw [heq, (hd.of_commit hi').2, Option.some.injEq] at hid
    exact hid.symm
  · rw [← Fetch.timesOf_eq hv] at hi
    rw [← Fetch.timesOf_eq hv'] at hi'
    exact hcommits.lt id id' c c' hi hi'
  · have hring := hd.coherent.ring
    rw [ReorderBuffer.getElem?_place, Option.some.injEq] at ht hu
    subst ht hu
    rw [hring.busy_nth j (by omega), decide_eq_true_eq] at hbt
    rw [hring.busy_nth k hk, decide_eq_true_eq] at hbu
    have hpair := List.pairwise_iff_getElem.1 (hd.issues_increase hissues) j k hbt hbu hjk
    rwa [← Option.some.inj ((hring.getElem?_window hbt).symm.trans (List.getElem?_eq_getElem hbt)),
      ← Option.some.inj ((hring.getElem?_window hbu).symm.trans (List.getElem?_eq_getElem hbu))] at hpair

/-- The fifth cycle takes the branch: the third instruction is written in that cycle and squashed all the same, the
fourth has not begun. Two cancelled slots leave before the next version of the third commits. The last instruction
could begin in the eighth cycle, but its product is not written before the tenth. -/
theorem versions_keep_time_branch : ∃ (config : Config) (code : List Instruction) (trace : List Deed)
    (s s' : Session), config.Admitted ∧ Session.Reached config code trace s ∧ s.step = .ok (s', .ok ()) ∧
      s.machine.fetch.timesOf ⟨2, 0⟩ = ⟨some 3, some 4, some 4, some 5, none⟩ ∧
      s.machine.fetch.timesOf ⟨3, 0⟩ = ⟨some 4, none, none, none, none⟩ ∧
      s.machine.fetch.timesOf ⟨2, 1⟩ = ⟨some 5, some 6, some 6, some 7, some 10⟩ ∧
      s.machine.fetch.timesOf ⟨3, 1⟩ = ⟨some 6, some 7, some 9, some 10, some 11⟩ ∧
      s.machine.fetch.timesOf ⟨4, 0⟩ = ⟨some 7, some 10, some 10, some 11, none⟩ ∧
      s'.isComplete = true ∧ s.KeepsTime config code ∧ s.machine.FreesOne s'.machine := by
  let mul : Instruction := ⟨.mul, some ⟨1⟩, ⟨2⟩, some ⟨3⟩, 0, []⟩
  let branch : Instruction := ⟨.beq, none, ⟨0⟩, some ⟨0⟩, 1, []⟩
  let add : Instruction := ⟨.add, some ⟨4⟩, ⟨2⟩, some ⟨3⟩, 0, []⟩
  let product : Instruction := ⟨.mul, some ⟨6⟩, ⟨4⟩, some ⟨3⟩, 0, []⟩
  let sum : Instruction := ⟨.add, some ⟨5⟩, ⟨1⟩, some ⟨6⟩, 0, []⟩
  let config : Config := { Config.standard with memorySize := 0 }
  have hadmitted : config.Admitted := ⟨by decide, by decide, by decide⟩
  have hrun : ∃ r ∈ Session.tracedRun config [mul, branch, add, product, sum] 11,
      r.2.machine.fetch.timesOf ⟨2, 0⟩ = ⟨some 3, some 4, some 4, some 5, none⟩ ∧
      r.2.machine.fetch.timesOf ⟨3, 0⟩ = ⟨some 4, none, none, none, none⟩ ∧
      r.2.machine.fetch.timesOf ⟨2, 1⟩ = ⟨some 5, some 6, some 6, some 7, some 10⟩ ∧
      r.2.machine.fetch.timesOf ⟨3, 1⟩ = ⟨some 6, some 7, some 9, some 10, some 11⟩ ∧
      r.2.machine.fetch.timesOf ⟨4, 0⟩ = ⟨some 7, some 10, some 10, some 11, none⟩ ∧
      ∃ next ∈ r.2.traced 1, next.2.isComplete = true := by
    decide +kernel
  obtain ⟨⟨trace, s⟩, hr, hthird, hfourth, hthird', hfourth', hlast, ⟨more, s'⟩, hnext, hcomplete⟩ := hrun
  have hreached := Session.Reached.of_tracedRun hr
  have hstep := Session.step_of_traced hnext
  obtain ⟨hkeeps, hfrees⟩ := versions_keep_time hadmitted hreached
  exact ⟨config, _, trace, s, s', hadmitted, hreached, hstep, hthird, hfourth, hthird', hfourth', hlast,
    hcomplete, hkeeps, hfrees s' hstep⟩

end OutOfOrder
