import OutOfOrder.Proofs.Turns

/-!
The phases of a cycle as sequences of turns, and so a cycle as one sequence of moves.
-/

set_option autoImplicit false

namespace OutOfOrder.Machine

variable {code : List Instruction} {m m' : Machine} {i : Nat}

theorem Move.steady {d : List Deed} (h : m.Move d m') : Steady m m' := by
  cases h with
  | @compute i k st s op tag id computed _ _ _ _ _ _ _ _ _ _ delivered =>
    let accessed := m.memory.access op computed (Station.operandValue st.right)
    have ha : Steady m { m with memory := accessed.2 } := ⟨rfl, rfl, rfl, rfl, rfl, rfl, rfl⟩
    exact ha.trans (deliver_steady delivered)
  | squash => exact squashYounger_steady m _
  | wait => exact ⟨rfl, rfl, rfl, rfl, rfl, rfl, rfl⟩
  | start => exact startExecution_steady m _ _ _
  | countdown => exact ⟨rfl, rfl, rfl, StationTable.size_modify _ _ _, rfl, rfl, rfl⟩
  | @complete i _ _ _ name shown =>
    have hc : Steady m (m.countdown i) := ⟨rfl, rfl, rfl, StationTable.size_modify _ _ _, rfl, rfl, rfl⟩
    exact hc.trans (completeExecution_steady _ name _ shown)
  | stall shortage => exact stall_steady m shortage
  | @issue _ _ _ _ _ physical _ _ _ _ register dispatched =>
    have ha : Steady m { m with physical } :=
      ⟨rfl, rfl, rfl, rfl, rfl, PhysicalFile.count_allocate register, rfl⟩
    exact ha.trans (dispatch_steady dispatched)
  | commit _ _ _ committed => exact commitHead_steady committed
  | discard _ _ retired => exact (retire_steady retired).trans (record_steady _ _)

theorem Moves.steady {ds : List Deed} (h : m.Moves ds m') : Steady m m' := by
  induction h with
  | refl => exact .refl _
  | step first _ ih => exact first.steady.trans ih

/-! ### Write result -/

/-- Stations may be freed, but none is taken and none of them counts down. -/
def Subsides (t t' : StationTable) : Prop :=
  ∀ (j : Nat) (st' : Station), t'.stations[j]? = some st' → st'.busy = true →
    ∃ st, t.stations[j]? = some st ∧ st.busy = true ∧ st'.remaining = st.remaining

theorem Subsides.refl (t : StationTable) : Subsides t t := fun _ st' hj hb => ⟨st', hj, hb, rfl⟩

theorem Subsides.trans {a b c : StationTable} (h : Subsides a b) (h' : Subsides b c) : Subsides a c := by
  intro j st' hj hb
  obtain ⟨st, hj, hb, hr⟩ := h' j st' hj hb
  obtain ⟨st₀, hj, hb, hr'⟩ := h j st hj hb
  exact ⟨st₀, hj, hb, hr.trans hr'⟩

theorem Gives.subsides {k : Nat} {st : Station} {s : Slot} {v : Instance} {tag : Tag} {result : Word}
    (given : m.Gives i k st s v tag result m') : Subsides m.stations m'.stations := by
  intro j st' hj hb
  rw [given.stations] at hj
  obtain ⟨-, st, hst, hbusy, rfl⟩ := Staffed.busy_delivered hj hb
  exact ⟨st, hst, hbusy, rfl⟩

theorem Clears.subsides {b : Nat} (cleared : m.Clears b m') : Subsides m.stations m'.stations :=
  fun _ st' hj hb => ⟨st', (Staffed.busy_vacated cleared.stations hj hb).1, hb, rfl⟩

namespace WriteTurn

theorem moves (h : m.WriteTurn i m') : Moves m ((m.computation? i).map Deed.computed).toList m' := by
  cases h with
  | idle _ silent =>
    rw [silent]
    exact .refl m
  | gives given =>
    rw [given.shows]
    exact .single given.move
  | clears given cleared =>
    rw [given.shows]
    exact (Moves.single given.move).trans (.single cleared.move)

theorem subsides (h : m.WriteTurn i m') : Subsides m.stations m'.stations := by
  cases h with
  | idle => exact .refl _
  | gives given => exact given.subsides
  | clears given cleared => exact given.subsides.trans cleared.subsides

/-- A station is idle after its turn. -/
theorem idle_after (h : m.WriteTurn i m') {st' : Station} (hi : m'.stations.stations[i]? = some st') :
    st'.busy = false := by
  by_contra hb
  rw [Bool.not_eq_false] at hb
  cases h with
  | idle free => simp [free st' hi] at hb
  | gives given =>
    rw [given.stations] at hi
    exact (Staffed.busy_delivered hi hb).1 rfl
  | clears given cleared =>
    have hmiddle := (Staffed.busy_vacated cleared.stations hi hb).1
    rw [given.stations] at hmiddle
    exact (Staffed.busy_delivered hmiddle hb).1 rfl

end WriteTurn

theorem remaining_of_finished {st : Station} (hi : i ∈ m.stations.finished)
    (hst : m.stations.stations[i]? = some st) (hb : st.busy = true) : st.remaining = 0 := by
  have hf := (List.mem_filter.1 hi).2
  simpa [hst, Station.isFinished, hb] using hf

/-- Of the stations that were done when the phase began, none has anything left to count down. -/
structure Writing (code : List Instruction) (due : List Nat) (m : Machine) : Prop where
  coherent : Coherent code m
  done : ∀ i ∈ due, ∀ st, m.stations.stations[i]? = some st → st.busy = true → st.remaining = 0

namespace Writing

variable {due : List Nat}

theorem start (h : Coherent code m) : Writing code m.stations.finished m :=
  ⟨h, fun _ hi _ hst hb => remaining_of_finished hi hst hb⟩

theorem turn (h : Writing code (i :: due) m) (hw : m.writeResult i = .ok m') :
    m.WriteTurn i m' ∧ Writing code due m' := by
  have hturn := writeResult_turn h.coherent (h.done i (List.mem_cons_self ..)) hw
  refine ⟨hturn, h.coherent.moves hturn.moves, fun j hj st' hst' hb' => ?_⟩
  obtain ⟨st, hst, hb, hr⟩ := hturn.subsides j st' hst' hb'
  rw [hr]
  exact h.done j (List.mem_cons_of_mem i hj) st hst hb

theorem foldlM {before after : List Nat} (h : Writing code (before ++ after) m)
    (hm : before.foldlM writeResult m = .ok m') : Writing code after m' :=
  foldlM_keeps (fun rest n => Writing code (rest ++ after) n) (fun _ _ _ _ hn hw => (hn.turn hw).2) h hm

end Writing

theorem writeResults_moves_of {xs : List Nat} (h : Writing code xs m)
    (hm : xs.foldlM writeResult m = .ok m') : Moves m ((computationsOf xs m).map .computed) m' := by
  induction xs generalizing m with
  | nil =>
    obtain rfl := pure_eq_ok_iff.1 hm
    exact .refl m
  | cons i rest ih =>
    rw [List.foldlM_cons, bind_eq_ok_iff] at hm
    obtain ⟨middle, hw, hrest⟩ := hm
    obtain ⟨hturn, hmiddle⟩ := h.turn hw
    have ht := hturn.moves.trans (ih hmiddle hrest)
    simp only [computationsOf, hw, List.map_append]
    rwa [← Option.toList_map]

theorem writeResults_moves (h : Coherent code m) (hm : m.writeResults = .ok m') :
    Moves m ((computationsOf m.stations.finished m).map .computed) m' :=
  writeResults_moves_of (.start h) hm

/-- What every turn keeps, the whole phase keeps; the list is of the stations that are still to come. -/
theorem writeResults_keeps (kept : List Nat → Machine → Prop)
    (turn : ∀ i rest m m', Coherent code m → kept (i :: rest) m → m.WriteTurn i m' → kept rest m')
    (h : Coherent code m) (hk : kept m.stations.finished m) (hm : m.writeResults = .ok m') :
    kept [] m' := by
  refine (foldlM_keeps (fun rest n => Writing code rest n ∧ kept rest n) ?_ ⟨.start h, hk⟩ hm).2
  intro i rest n n' ⟨hn, hkn⟩ hw
  obtain ⟨hturn, hn'⟩ := hn.turn hw
  exact ⟨hn', turn i rest n n' hn.coherent hkn hturn⟩

/-- Afterwards every busy station still has cycles to go. -/
theorem writeResults_leaves (h : Coherent code m) (hm : m.writeResults = .ok m') {st : Station}
    (hi : m'.stations.stations[i]? = some st) (hb : st.busy = true) : st.remaining ≠ 0 := by
  intro hz
  have hmem := @writeResults_keeps code m m' (fun rest n => ∀ (j : Nat) (st : Station),
    n.stations.stations[j]? = some st → st.busy = true → st.remaining = 0 → j ∈ rest) ?_ h ?_ hm
    i st hi hb hz
  · exact absurd hmem List.not_mem_nil
  · intro j rest n n' _ hk turn l st' hl hb' hz'
    obtain ⟨st₀, hl₀, hb₀, hr⟩ := turn.subsides l st' hl hb'
    rcases List.mem_cons.1 (hk l st₀ hl₀ hb₀ (hr ▸ hz')) with rfl | hrest
    · simp [turn.idle_after hl] at hb'
    · exact hrest
  · intro j st' hj hb' hz'
    have hlt := (Array.getElem?_eq_some_iff.1 hj).1
    exact List.mem_filter.2 ⟨List.mem_range.2 hlt, by simp [hj, Station.isFinished, hb', hz']⟩

/-! ### Execute -/

theorem ExecuteTurn.moves (h : m.ExecuteTurn i m') : Moves m [] m' := by
  cases h with
  | rests => exact .refl m
  | waits => exact .single .wait
  | runs run => exact run.moves

/-- The turn of one station is none for the others. -/
theorem ExecuteTurn.others (h : m.ExecuteTurn i m') {j : Nat} (hj : j ≠ i) :
    m'.stations.stations[j]? = m.stations.stations[j]? := by
  cases h with
  | rests | waits => rfl
  | runs run => rw [run.stations, countdown, StationTable.getElem?_stations_modify, if_neg (Ne.symm hj)]

/-- What every turn keeps, the whole phase keeps; the list is of the stations that are still to come. -/
theorem execute_keeps (kept : List Nat → Machine → Prop)
    (turn : ∀ i rest m m', Coherent code m → i ∉ rest → kept (i :: rest) m → m.ExecuteTurn i m' →
      kept rest m')
    (h : Coherent code m) (hk : kept (List.range m.stations.size) m) (hm : m.execute = .ok m') :
    kept [] m' := by
  refine (foldlM_keeps (fun rest n => Coherent code n ∧ kept rest n ∧ rest.Nodup) ?_
    ⟨h, hk, List.nodup_range⟩ hm).2.1
  intro i rest n n' ⟨hn, hkn, hnodup⟩ he
  rw [List.nodup_cons] at hnodup
  have hturn := executeStation_turn hn he
  exact ⟨hn.moves hturn.moves, turn i rest n n' hn hnodup.1 hkn hturn, hnodup.2⟩

theorem execute_moves (h : Coherent code m) (hm : m.execute = .ok m') : Moves m [] m' :=
  execute_keeps (fun _ n => Moves m [] n) (fun _ _ _ _ _ _ hk turn => hk.trans turn.moves) h (.refl m) hm

/-! ### Issue and commit -/

theorem IssueTurn.moves (h : m.IssueTurn m') : Moves m [] m' := by
  cases h with
  | ended => exact .refl m
  | stalls shortage => exact .single (.stall shortage)
  | enters entered => exact .single entered.move

theorem CommitTurn.moves (h : m.CommitTurn m') : Moves m (m.retiring?.map Deed.retired).toList m' := by
  cases h with
  | empty _ silent | early _ _ _ silent =>
    rw [silent]
    exact .refl m
  | commits _ move shows =>
    rw [shows]
    exact .single move
  | discards _ move silent =>
    rw [silent]
    exact .single move

theorem Turn.moves (h : m.Turn m') : ∃ ds, Moves m ds m' := by
  cases h with
  | write turn => exact ⟨_, turn.moves⟩
  | execute turn => exact ⟨_, turn.moves⟩
  | issue turn => exact ⟨_, turn.moves⟩
  | commit turn => exact ⟨_, turn.moves⟩

/-- The cursor moves on when an instruction is issued, and at no other time. -/
theorem Turn.pc_le_or_enters (h : Coherent code m) (turn : m.Turn m') : m'.fetch.pc ≤ m.fetch.pc ∨
    ∃ v i st left right tag, m.Enters v i st left right tag m' := by
  cases turn with
  | write turn =>
    refine .inl ?_
    cases turn with
    | idle => exact Nat.le_refl _
    | gives given =>
      rw [given.fetch]
      exact Nat.le_refl _
    | clears given cleared =>
      rw [cleared.fetch, (h.move given.move).order.pc_renewAfter cleared.issued]
      have hissued := cleared.issued
      rw [given.fetch] at hissued
      exact hissued
  | execute turn =>
    refine .inl ?_
    cases turn with
    | rests | waits => exact Nat.le_refl _
    | runs run =>
      rw [run.fetch]
      split <;> exact Nat.le_refl _
  | issue turn =>
    cases turn with
    | ended | stalls => exact .inl (Nat.le_refl _)
    | enters entered => exact .inr ⟨_, _, _, _, _, _, entered⟩
  | commit turn =>
    refine .inl ?_
    cases turn with
    | empty | early => exact Nat.le_refl _
    | commits left | discards left => exact Nat.le_of_eq left.pc

/-! ### The whole cycle -/

theorem runCycle_phases (h : Coherent code m) (hm : m.runCycle = .ok m') : ∃ written executed issued last,
    m.tick.writeResults = .ok written ∧ Coherent code written ∧
    written.execute = .ok executed ∧ Coherent code executed ∧
    executed.issue = .ok issued ∧ executed.IssueTurn issued ∧ Coherent code issued ∧
    issued.commit = .ok last ∧ issued.CommitTurn last ∧ Coherent code last ∧ m' = last.settle := by
  simp only [runCycle, bind_eq_ok_iff, pure_eq_ok_iff] at hm
  obtain ⟨written, hw, executed, he, issued, hi, last, hc, rfl⟩ := hm
  have hwritten := h.tick.moves (writeResults_moves h.tick hw)
  have hexecuted := hwritten.moves (execute_moves hwritten he)
  have hit := issue_turn hexecuted hi
  have hissued := hexecuted.moves hit.moves
  have hct := commit_turn hissued hc
  exact ⟨written, executed, issued, last, hw, hwritten, he, hexecuted, hi, hit, hissued, hc, hct,
    hissued.moves hct.moves, rfl⟩

theorem runCycle_moves (h : Coherent code m) (hm : m.runCycle = .ok m') :
    ∃ last, Moves m.tick m.deeds last ∧ m' = last.settle := by
  obtain ⟨written, executed, issued, last, hw, hwritten, he, -, hi, hit, -, -, hct, -, rfl⟩ :=
    runCycle_phases h hm
  have hbefore : m.beforeCommit = .ok issued := by
    simp [beforeCommit, hw, he, hi, bind, Except.bind]
  refine ⟨last, ?_, rfl⟩
  have hall := (writeResults_moves h.tick hw).trans
    ((execute_moves hwritten he).trans (hit.moves.trans hct.moves))
  rw [List.nil_append, List.nil_append] at hall
  simp only [deeds, hbefore]
  exact hall

/-- What every turn keeps, the phases of a cycle keep. -/
theorem runCycle_keeps (kept : Machine → Prop)
    (turn : ∀ m m', Coherent code m → kept m → m.Turn m' → kept m') (h : Coherent code m)
    (hk : kept m.tick) (hm : m.runCycle = .ok m') : ∃ last, kept last ∧ m' = last.settle := by
  obtain ⟨written, executed, issued, last, hw, hwritten, he, hexecuted, -, hit, hissued, -, hct, -, rfl⟩ :=
    runCycle_phases h hm
  have hkw := writeResults_keeps (fun _ => kept) (fun _ _ n n' hn hk t => turn n n' hn hk (.write t)) h.tick
    hk hw
  have hke := execute_keeps (fun _ => kept) (fun _ _ n n' hn _ hk t => turn n n' hn hk (.execute t)) hwritten
    hkw he
  exact ⟨last, turn _ _ hissued (turn _ _ hexecuted hke (.issue hit)) (.commit hct), rfl⟩

end OutOfOrder.Machine
