import OutOfOrder.Proofs.Timestamps
import Mathlib.Logic.Function.Basic

/-!
The cycles on record under the names of the versions. A squash changes none of them, and every other turn at most
those of one version. So no two versions are issued in one cycle, and they commit in the order of their positions.
-/

set_option autoImplicit false

namespace OutOfOrder

open Machine

namespace Fetch

variable {f : Fetch} {code : List Instruction} {p : Nat} {v : Instance} {id : InstanceId}

/-- Nothing is on record under a name that no version has. -/
def timesOf (f : Fetch) (id : InstanceId) : Times := ((f.get? id).map Instance.times).getD .none

theorem timesOf_eq (hv : f.get? id = some v) : f.timesOf id = v.times := by
  rw [timesOf, hv]
  rfl

theorem timesOf_ofCode (code : List Instruction) (id : InstanceId) : (ofCode code).timesOf id = .none := by
  cases hv : (ofCode code).get? id with
  | none => rw [timesOf, hv, Option.map_none, Option.getD_none]
  | some v =>
    obtain ⟨i, p, rfl⟩ := fresh_of_get?_ofCode hv
    exact timesOf_eq hv

theorem timesOf_modify (hf : f.Orderly code) (hv : f.current? p = some v) (stage : Stage) (times : Times) :
    (f.modify v.id (Sequenced.moved stage times)).timesOf = Function.update f.timesOf v.id times := by
  funext id
  by_cases he : id = v.id
  · rw [he, Function.update_self, timesOf, get?_modify, if_pos rfl, hf.get?_current hv]
    rfl
  · rw [Function.update_of_ne he, timesOf, get?_modify, if_neg (Ne.symm he), timesOf]

theorem timesOf_renewAfter (hf : f.Orderly code) (b : Nat) : (f.renewAfter b).timesOf = f.timesOf := by
  funext id
  cases hv : f.get? id with
  | some v =>
    rw [timesOf_eq hv, timesOf_eq (get?_renewAfter hf b hv)]
    split <;> rfl
  | none =>
    cases hv' : (f.renewAfter b).get? id with
    | none => rw [timesOf, timesOf, hv, hv']
    | some v' =>
      obtain ⟨i, rfl⟩ := fresh_of_get?_renewAfter hf hv hv'
      rw [timesOf_eq hv', timesOf, hv]
      rfl

end Fetch

/-- Coherent, and the slots know the same of the versions as the histories do. -/
structure Documented (code : List Instruction) (m : Machine) : Prop where
  coherent : Coherent code m
  faithful : Faithful m
  dated : Dated m

namespace Documented

variable {code : List Instruction} {m m' : Machine} {i k : Nat} {st : Station} {s : Slot} {v : Instance}
  {tag : Tag} {result : Word} {id : InstanceId}

theorem of_core (h : Documented code m) (hcoh : Coherent code m') (hcore : SameCore m m') :
    Documented code m' := ⟨hcoh, h.faithful.of_core hcore, h.dated.of_core hcore⟩

theorem turn (h : Documented code m) (ht : m.Turn m') : Documented code m' := by
  obtain ⟨ds, hmoves⟩ := ht.moves
  exact ⟨h.coherent.moves hmoves, h.faithful.turn h.coherent ht, h.dated.turn h.coherent h.faithful ht⟩

theorem records (h : Documented code m) (current : m.fetch.current? v.id.position = some v) :
    m.fetch.timesOf v.id = v.times ∧ v.stage.Records (m.fetch.timesOf v.id) := by
  have htimes := Fetch.timesOf_eq (h.coherent.order.orderly.get?_current current)
  exact ⟨htimes, htimes ▸ h.dated.records h.coherent current⟩

/-- A slot that was not cancelled has its result when a write is on record. -/
theorem isSome_write (h : Documented code m) (hs : s ∈ m.rob.window) (live : s.isLive = true)
    (occupant : s.occupant = some id) : (m.fetch.timesOf id).write.isSome = s.ready := by
  obtain ⟨v, ho, current⟩ := h.coherent.exists_current hs live
  obtain rfl := Option.some.inj (occupant.symm.trans ho)
  have hstage := h.coherent.order.stage_of_live hs live ho current
  obtain ⟨-, hrecords⟩ := h.records current
  generalize m.fetch.timesOf v.id = times at hrecords ⊢
  cases hready : s.ready with
  | true =>
    rw [if_pos hready] at hstage
    rw [hstage] at hrecords
    cases hrecords
    rfl
  | false =>
    rw [if_neg (by simp [hready])] at hstage
    rcases hstage with hstage | hstage
    all_goals
      rw [hstage] at hrecords
      cases hrecords
      rfl

/-- A commit is on record for the current versions of the positions that have committed, and for no other. -/
theorem of_commit (h : Documented code m) {c : Nat} (hc : (m.fetch.timesOf id).commit = some c) :
    id.position < m.commits.toList.length ∧ m.fetch.idAt id.position = some id := by
  cases hv : m.fetch.get? id with
  | none => simp [Fetch.timesOf, hv, Times.none] at hc
  | some v =>
    have hstage := (h.dated.versions id v hv).of_commit (Fetch.timesOf_eq hv ▸ hc)
    have horderly := h.coherent.order.orderly
    have current := horderly.current_of_get? hv (by simp [hstage])
    obtain ⟨-, hflight, hwaiting⟩ := h.coherent.stage_eq current
    refine ⟨?_, by rw [Fetch.idAt, current, Option.map_some, (horderly.id_of_get? hv).1]⟩
    by_contra hle
    by_cases hpc : id.position < m.fetch.pc
    · simpa [hstage] using hflight (by omega) hpc
    · simpa [hstage] using hwaiting (by omega)

/-! ### What a turn adds -/

/-- The times of a slot whose station is done. -/
theorem times_given (h : Documented code m) (given : m.Gives i k st s v tag result m') : ∃ c x d,
    m.fetch.timesOf v.id = ⟨some c, some x, some d, none, none⟩ ∧ s.times = m.fetch.timesOf v.id := by
  have stage := h.faithful.stage _ _ _ _ _ given.mans
  rw [if_pos given.last] at stage
  obtain ⟨c, x, d, hv, hs⟩ := h.dated.times_executed h.coherent given.toAwaits stage
  rw [(h.records given.current).1]
  exact ⟨c, x, d, hv, hs⟩

/-- The times of a slot whose station counts down. -/
theorem times_ran (h : Documented code m) (run : m.Runs i k st s v m') : ∃ c,
    m.fetch.timesOf v.id = ⟨some c, none, none, none, none⟩ ∧ s.times.issue = some c ∧
    (s.ran m.cycle st.remaining).times = ⟨some c, some (s.times.execute.getD m.cycle),
      if st.remaining = 1 then some m.cycle else none, none, none⟩ := by
  have stage := h.faithful.stage _ _ _ _ _ run.mans
  rw [if_neg run.more] at stage
  obtain ⟨c, x, hv, hs⟩ := h.dated.times_issued h.coherent run.toAwaits stage
  refine ⟨c, (h.records run.current).1.trans hv, by rw [hs], ?_⟩
  cases x <;> by_cases hone : st.remaining = 1 <;>
    simp [Slot.ran, Slot.begun, Slot.started, Slot.executed, hs, hone]

theorem gives (h : Documented code m) (given : m.Gives i k st s v tag result m') : m'.fetch.timesOf =
    Function.update m.fetch.timesOf v.id { m.fetch.timesOf v.id with write := some m.cycle } := by
  obtain ⟨c, x, d, -, hs⟩ := h.times_given given
  rw [given.fetch, Fetch.timesOf_modify h.coherent.order.orderly given.current, ← hs]
  rfl

theorem clears (h : Documented code m) {b : Nat} (cleared : m.Clears b m') :
    m'.fetch.timesOf = m.fetch.timesOf := by
  rw [cleared.fetch, Fetch.timesOf_renewAfter h.coherent.order.orderly]

theorem runs (h : Documented code m) (run : m.Runs i k st s v m') : m'.fetch.timesOf =
    if st.remaining = 1 then Function.update m.fetch.timesOf v.id (s.ran m.cycle st.remaining).times
    else m.fetch.timesOf := by
  rw [run.fetch]
  split
  · rw [Fetch.timesOf_modify h.coherent.order.orderly run.current]
  · rfl

theorem enters (h : Documented code m) {left : Operand} {right : Option Operand}
    (entered : m.Enters v i st left right tag m') : m.fetch.timesOf v.id = .none ∧ m'.fetch.timesOf =
      Function.update m.fetch.timesOf v.id { Times.none with issue := some m.cycle } := by
  have hposition : v.id.position = m.fetch.pc := h.coherent.order.orderly.position_current entered.next
  have current : m.fetch.current? v.id.position = some v := hposition ▸ entered.next
  obtain ⟨htimes, -⟩ := h.records current
  refine ⟨?_, ?_⟩
  · rw [htimes]
    exact h.dated.times_unissued h.coherent entered.next
      (h.coherent.order.waiting _ v (Nat.le_refl _) entered.next)
  · rw [entered.fetch]
    exact Fetch.timesOf_modify h.coherent.order.orderly entered.next _ _

theorem commits (h : Documented code m) {rest : List Slot} (left : m.Leaves s rest m') (live : s.isLive = true)
    (ready : s.ready = true) (occupant : s.occupant = some v.id)
    (current : m.fetch.current? v.id.position = some v)
    (fetch : m'.fetch = m.fetch.modify v.id (Sequenced.moved .committed (s.completed m.cycle).times)) :
    s.times = m.fetch.timesOf v.id ∧ m'.fetch.timesOf =
      Function.update m.fetch.timesOf v.id { m.fetch.timesOf v.id with commit := some m.cycle } := by
  obtain ⟨i, x, d, w, -, htimes⟩ := h.dated.times_written h.coherent left.mem_head live ready occupant current
  have hs : s.times = m.fetch.timesOf v.id := htimes.trans (h.records current).1.symm
  refine ⟨hs, ?_⟩
  rw [fetch, Fetch.timesOf_modify h.coherent.order.orderly current, ← hs]
  rfl

end Documented

/-! ### Turn by turn -/

namespace Documented

variable {code : List Instruction} {m m' : Machine} {i : Nat}

theorem writeTurn (h : Documented code m) (turn : m.WriteTurn i m') (id : InstanceId) :
    m'.fetch.timesOf id = { m.fetch.timesOf id with write := (m'.fetch.timesOf id).write } := by
  have hgives : ∀ {k st s v tag result middle}, m.Gives i k st s v tag result middle →
      middle.fetch.timesOf id = { m.fetch.timesOf id with write := (middle.fetch.timesOf id).write } := by
    intro k st s v tag result middle given
    rw [h.gives given, Function.update_apply]
    split
    · next he => rw [he]
    · rfl
  cases turn with
  | idle => rfl
  | gives given => exact hgives given
  | clears given cleared =>
    rw [(h.turn (.write (.gives given))).clears cleared]
    exact hgives given

theorem executeTurn (h : Documented code m) (turn : m.ExecuteTurn i m') (id : InstanceId) :
    m'.fetch.timesOf id = { m.fetch.timesOf id with
      execute := (m'.fetch.timesOf id).execute, executeDone := (m'.fetch.timesOf id).executeDone } := by
  cases turn with
  | rests | waits => rfl
  | runs run =>
    rw [h.runs run]
    split
    · obtain ⟨c, hv, -, hs⟩ := h.times_ran run
      rw [Function.update_apply]
      split
      · next he => rw [he, hv, hs]
      · rfl
    · rfl

theorem issueTurn (h : Documented code m) (turn : m.IssueTurn m') (id : InstanceId) :
    m'.fetch.timesOf id = { m.fetch.timesOf id with issue := (m'.fetch.timesOf id).issue } := by
  cases turn with
  | ended | stalls => rfl
  | enters entered =>
    obtain ⟨hv, htimes⟩ := h.enters entered
    rw [htimes, Function.update_apply]
    split
    · next he => rw [he, hv]
    · rfl

theorem commitTurn (h : Documented code m) (turn : m.CommitTurn m') (id : InstanceId) :
    m'.fetch.timesOf id = { m.fetch.timesOf id with commit := (m'.fetch.timesOf id).commit } := by
  cases turn with
  | empty | early => rfl
  | discards left _ _ _ fetch => rw [fetch]
  | commits left _ _ live may occupant current _ fetch =>
    rw [(h.commits left live (Bool.and_eq_true_iff.1 may).1 occupant current fetch).2, Function.update_apply]
    split
    · next he => rw [he]
    · rfl

/-! ### Phase by phase -/

theorem writeResults_keeps (kept : List Nat → Machine → Prop)
    (turn : ∀ i rest m m', Documented code m → kept (i :: rest) m → m.WriteTurn i m' → kept rest m')
    (h : Documented code m) (hk : kept m.stations.finished m) (hm : m.writeResults = .ok m') :
    Documented code m' ∧ kept [] m' :=
  Machine.writeResults_keeps (fun rest n => Documented code n ∧ kept rest n)
    (fun i rest n n' _ ⟨hn, hkn⟩ hturn => ⟨hn.turn (.write hturn), turn i rest n n' hn hkn hturn⟩)
    h.coherent ⟨h, hk⟩ hm

theorem execute_keeps (kept : List Nat → Machine → Prop)
    (turn : ∀ i rest m m', Documented code m → i ∉ rest → kept (i :: rest) m → m.ExecuteTurn i m' →
      kept rest m')
    (h : Documented code m) (hk : kept (List.range m.stations.size) m) (hm : m.execute = .ok m') :
    Documented code m' ∧ kept [] m' :=
  Machine.execute_keeps (fun rest n => Documented code n ∧ kept rest n)
    (fun i rest n n' _ hi ⟨hn, hkn⟩ hturn => ⟨hn.turn (.execute hturn), turn i rest n n' hn hi hkn hturn⟩)
    h.coherent ⟨h, hk⟩ hm

end Documented

/-- The machines between the phases of a cycle. -/
structure Machine.Passes (code : List Instruction) (m written executed issued last m' : Machine) : Prop where
  writes : m.tick.writeResults = .ok written
  executes : written.execute = .ok executed
  issues : executed.IssueTurn issued
  commits : issued.CommitTurn last
  settles : m' = last.settle
  ticked : Documented code m.tick
  documented : Documented code written ∧ Documented code executed ∧ Documented code issued
  cycles : written.cycle = m.cycle + 1 ∧ executed.cycle = m.cycle + 1 ∧ issued.cycle = m.cycle + 1 ∧
    m'.cycle = m.cycle + 1

theorem Documented.passes {code : List Instruction} {m m' : Machine} (h : Documented code m)
    (hm : m.runCycle = .ok m') : ∃ written executed issued last, m.Passes code written executed issued last m' := by
  obtain ⟨written, executed, issued, last, hw, -, hx, -, -, hit, -, -, hct, -, rfl⟩ := runCycle_phases h.coherent hm
  have hticked : Documented code m.tick := h.of_core h.coherent.tick m.sameCore_tick
  have hwritten := (hticked.writeResults_keeps (fun _ _ => True) (fun _ _ _ _ _ _ _ => trivial) trivial hw).1
  have hexecuted := (hwritten.execute_keeps (fun _ _ => True) (fun _ _ _ _ _ _ _ _ => trivial) trivial hx).1
  have hcw : written.cycle = m.cycle + 1 := (writeResults_steady hw).cycle
  have hcx : executed.cycle = m.cycle + 1 := (execute_moves hwritten.coherent hx).steady.cycle.trans hcw
  have hci : issued.cycle = m.cycle + 1 := hit.moves.steady.cycle.trans hcx
  have hcl : last.cycle = m.cycle + 1 := hct.moves.steady.cycle.trans hci
  exact ⟨written, executed, issued, last, hw, hx, hit, hct, rfl, hticked,
    ⟨hwritten, hexecuted, hexecuted.turn (.issue hit)⟩, hcw, hcx, hci, (cycle_settle last).trans hcl⟩

theorem Session.Reached.documented {config : Config} {code : List Instruction} {trace : List Deed} {s : Session}
    (hc : config.Admitted) (h : Session.Reached config code trace s) : Documented code s.machine :=
  ⟨h.coherent hc, h.faithful hc, h.dated hc⟩

namespace Machine.Passes

variable {code : List Instruction} {m written executed issued last m' : Machine}

/-- Results and executions leave the issues and the commits alone. -/
theorem sameEnds (h : m.Passes code written executed issued last m') (id : InstanceId) :
    (executed.fetch.timesOf id).issue = (m.fetch.timesOf id).issue ∧
      (executed.fetch.timesOf id).commit = (m.fetch.timesOf id).commit := by
  have hwritten := (h.ticked.writeResults_keeps (fun _ n => (n.fetch.timesOf id).issue = (m.fetch.timesOf id).issue ∧
    (n.fetch.timesOf id).commit = (m.fetch.timesOf id).commit) ?_ ⟨rfl, rfl⟩ h.writes).2
  · refine (h.documented.1.execute_keeps (fun _ n => (n.fetch.timesOf id).issue = (m.fetch.timesOf id).issue ∧
      (n.fetch.timesOf id).commit = (m.fetch.timesOf id).commit) ?_ hwritten h.executes).2
    intro i rest n n' hn _ hk turn
    rw [hn.executeTurn turn id]
    exact hk
  · intro i rest n n' hn hk turn
    rw [hn.writeTurn turn id]
    exact hk

theorem fetch_eq (h : m.Passes code written executed issued last m') : m'.fetch = last.fetch := by
  rw [h.settles, last.sameCore_settle.fetch]

/-- The issue phase is the only one that adds an issue. -/
theorem issue_eq (h : m.Passes code written executed issued last m') (id : InstanceId) :
    (m'.fetch.timesOf id).issue = (issued.fetch.timesOf id).issue := by
  rw [h.fetch_eq, h.documented.2.2.commitTurn h.commits id]

end Machine.Passes

/-! ### One issue and one commit a cycle -/

/-- Every issue has a cycle of its own, up to the bound. -/
structure IssuesApart (bound : Nat) (f : Fetch) : Prop where
  le : ∀ id c, (f.timesOf id).issue = some c → c ≤ bound
  inj : ∀ id id' c, (f.timesOf id).issue = some c → (f.timesOf id').issue = some c → id = id'

/-- The commits are in the order of the positions, up to the bound. -/
structure CommitsInOrder (bound : Nat) (f : Fetch) : Prop where
  le : ∀ id c, (f.timesOf id).commit = some c → c ≤ bound
  lt : ∀ id id' c c', (f.timesOf id).commit = some c → (f.timesOf id').commit = some c' →
    id.position < id'.position → c < c'

namespace IssuesApart

variable {code : List Instruction} {m m' : Machine} {f f' : Fetch} {bound : Nat}

theorem start (hf : f = .ofCode code) : IssuesApart bound f := by
  have hnone : ∀ id, (f.timesOf id).issue = none := fun id => by rw [hf, Fetch.timesOf_ofCode, Times.none]
  exact ⟨fun id c hc => by simp [hnone] at hc, fun id id' c hc => by simp [hnone] at hc⟩

theorem mono (h : IssuesApart bound f) {bound' : Nat} (hle : bound ≤ bound') : IssuesApart bound' f :=
  ⟨fun id c hc => Nat.le_trans (h.le id c hc) hle, h.inj⟩

theorem congr (h : IssuesApart bound f) (hsame : ∀ id, (f'.timesOf id).issue = (f.timesOf id).issue) :
    IssuesApart bound f' :=
  ⟨fun id c hc => h.le id c (hsame id ▸ hc), fun id id' c hc hc' => h.inj id id' c (hsame id ▸ hc) (hsame id' ▸ hc')⟩

theorem issueTurn (h : IssuesApart bound m.fetch) (hd : Documented code m) (hcycle : m.cycle = bound + 1)
    (turn : m.IssueTurn m') : IssuesApart (bound + 1) m'.fetch := by
  cases turn with
  | ended | stalls => exact h.mono (Nat.le_succ _)
  | @enters v i st left right tag m' entered =>
    -- the cycle is later than all that are on record
    have hcases : ∀ id c, (m'.fetch.timesOf id).issue = some c →
        id = v.id ∧ c = bound + 1 ∨ (m.fetch.timesOf id).issue = some c ∧ c ≤ bound := by
      intro id c hc
      rw [(hd.enters entered).2, Function.update_apply] at hc
      split at hc
      · next he => exact .inl ⟨he, hcycle ▸ (Option.some.inj hc).symm⟩
      · exact .inr ⟨hc, h.le id c hc⟩
    refine ⟨fun id c hc => ?_, fun id id' c hc hc' => ?_⟩
    · rcases hcases id c hc with ⟨-, rfl⟩ | ⟨-, hle⟩
      · exact Nat.le_refl _
      · exact Nat.le_succ_of_le hle
    · rcases hcases id c hc with ⟨rfl, rfl⟩ | ⟨hold, hle⟩ <;>
        rcases hcases id' _ hc' with ⟨rfl, he⟩ | ⟨hold', hle'⟩
      · rfl
      · omega
      · omega
      · exact h.inj id id' c hold hold'

theorem cycle (h : IssuesApart m.cycle m.fetch) (hd : Documented code m) (hm : m.runCycle = .ok m') :
    IssuesApart m'.cycle m'.fetch := by
  obtain ⟨written, executed, issued, last, hpasses⟩ := hd.passes hm
  obtain ⟨-, hexecuted, -⟩ := hpasses.documented
  obtain ⟨-, hcx, -, hc⟩ := hpasses.cycles
  have hissued := (h.congr fun id => (hpasses.sameEnds id).1).issueTurn hexecuted hcx hpasses.issues
  exact hc.symm ▸ hissued.congr hpasses.issue_eq

end IssuesApart

namespace CommitsInOrder

variable {code : List Instruction} {m m' : Machine} {f f' : Fetch} {bound : Nat}

theorem start (hf : f = .ofCode code) : CommitsInOrder bound f := by
  have hnone : ∀ id, (f.timesOf id).commit = none := fun id => by rw [hf, Fetch.timesOf_ofCode, Times.none]
  exact ⟨fun id c hc => by simp [hnone] at hc, fun id id' c c' hc => by simp [hnone] at hc⟩

theorem mono (h : CommitsInOrder bound f) {bound' : Nat} (hle : bound ≤ bound') : CommitsInOrder bound' f :=
  ⟨fun id c hc => Nat.le_trans (h.le id c hc) hle, h.lt⟩

theorem congr (h : CommitsInOrder bound f) (hsame : ∀ id, (f'.timesOf id).commit = (f.timesOf id).commit) :
    CommitsInOrder bound f' :=
  ⟨fun id c hc => h.le id c (hsame id ▸ hc),
    fun id id' c c' hc hc' => h.lt id id' c c' (hsame id ▸ hc) (hsame id' ▸ hc')⟩

theorem commitTurn (h : CommitsInOrder bound m.fetch) (hd : Documented code m) (hcycle : m.cycle = bound + 1)
    (turn : m.CommitTurn m') : CommitsInOrder (bound + 1) m'.fetch := by
  cases turn with
  | empty | early => exact h.mono (Nat.le_succ _)
  | discards left _ _ _ fetch => exact fetch ▸ h.mono (Nat.le_succ _)
  | @commits s rest v m' left _ _ live may occupant current position fetch =>
    -- what has committed before has done so earlier, and for an earlier position
    have hcases : ∀ id c, (m'.fetch.timesOf id).commit = some c → id = v.id ∧ c = bound + 1 ∨
        (m.fetch.timesOf id).commit = some c ∧ c ≤ bound ∧ id.position < v.id.position := by
      intro id c hc
      have hready := (Bool.and_eq_true_iff.1 may).1
      rw [(hd.commits left live hready occupant current fetch).2, Function.update_apply] at hc
      split at hc
      · next he => exact .inl ⟨he, hcycle ▸ (Option.some.inj hc).symm⟩
      · exact .inr ⟨hc, h.le id c hc, position ▸ (hd.of_commit hc).1⟩
    refine ⟨fun id c hc => ?_, fun id id' c c' hc hc' hlt => ?_⟩
    · rcases hcases id c hc with ⟨-, rfl⟩ | ⟨-, hle, -⟩
      · exact Nat.le_refl _
      · exact Nat.le_succ_of_le hle
    · rcases hcases id c hc with ⟨rfl, rfl⟩ | ⟨hold, hle, hbefore⟩ <;>
        rcases hcases id' c' hc' with ⟨rfl, rfl⟩ | ⟨hold', hle', hbefore'⟩
      · omega
      · omega
      · omega
      · exact h.lt id id' c c' hold hold' hlt

theorem cycle (h : CommitsInOrder m.cycle m.fetch) (hd : Documented code m) (hm : m.runCycle = .ok m') :
    CommitsInOrder m'.cycle m'.fetch := by
  obtain ⟨written, executed, issued, last, hpasses⟩ := hd.passes hm
  obtain ⟨-, hexecuted, hissued⟩ := hpasses.documented
  obtain ⟨-, -, hci, hc⟩ := hpasses.cycles
  have hbefore : CommitsInOrder m.cycle issued.fetch := h.congr fun id => by
    rw [hexecuted.issueTurn hpasses.issues id, ← (hpasses.sameEnds id).2]
  rw [hc, hpasses.fetch_eq]
  exact hbefore.commitTurn hissued hci hpasses.commits

end CommitsInOrder

end OutOfOrder
