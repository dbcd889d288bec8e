import OutOfOrder.Proofs.Correspondence

/-!
The life of a version: it is issued, executed, written and committed, at most one stage a cycle, unless a taken
branch squashes it on the way. A position gets another version only behind a branch taken in the same cycle.
-/

set_option autoImplicit false

namespace OutOfOrder

open Machine

namespace Stage

inductive Advances : Stage → Stage → Prop
  | issue : Advances .unissued .issued
  | execute : Advances .issued .executed
  | write : Advances .executed .written
  | commit : Advances .written .committed

def isInFlight : Stage → Bool
  | issued | executed | written => true
  | _ => false

/-- What a cycle may make of a stage. -/
inductive Becomes (s : Stage) : Stage → Prop
  | stays : Becomes s s
  | advances {s' : Stage} (next : s.Advances s') : Becomes s s'
  | squashed (inFlight : s.isInFlight = true) : Becomes s .squashed

end Stage

/-- The version after this one at the same position. -/
def InstanceId.next (id : InstanceId) : InstanceId := ⟨id.position, id.version + 1⟩

namespace Instance

/-- What the first phase of cycle `c` may make of a version. -/
inductive Resolves (c : Nat) (v v' : Instance) : Prop
  | written (before : v.stage = .executed) (after : v'.stage = .written) (now : v'.times.write = some c)
  | squashed (before : v.stage.isInFlight = true) (after : v'.stage = .squashed)

theorem Resolves.trans {c : Nat} {v v' v'' : Instance} (h : v.Resolves c v') (h' : v'.Resolves c v'') :
    v.Resolves c v'' := by
  cases h with
  | written before after =>
    cases h' with
    | written before' => rw [after] at before'; simp at before'
    | squashed _ after' => exact .squashed (by rw [before]; rfl) after'
  | squashed _ after =>
    cases h' with
    | written before' => rw [after] at before'; simp at before'
    | squashed before' => rw [after] at before'; simp [Stage.isInFlight] at before'

def Completes (v v' : Instance) : Prop := v.stage = .issued ∧ v'.stage = .executed

def Enters (v v' : Instance) : Prop := v.stage = .unissued ∧ v'.stage = .issued

def Retires (c : Nat) (v v' : Instance) : Prop :=
  v.stage = .written ∧ v'.stage = .committed ∧ ∃ w < c, v.times.write = some w

end Instance

/-! ### Versions stay where they are -/

namespace Fetch

/-- Every version is still there, as it was or as the relation has it. -/
def Evolves (R : Instance → Instance → Prop) (f f' : Fetch) : Prop :=
  ∀ id v, f.get? id = some v → ∃ v', f'.get? id = some v' ∧ (v' = v ∨ R v v')

variable {R : Instance → Instance → Prop} {code : List Instruction} {f f' f'' : Fetch} {p : Nat}
  {v : Instance}

theorem Evolves.refl (f : Fetch) : f.Evolves R f := fun _ v hv => ⟨v, hv, .inl rfl⟩

theorem Evolves.trans (hR : ∀ v v' v'', R v v' → R v' v'' → R v v'') (h : f.Evolves R f')
    (h' : f'.Evolves R f'') : f.Evolves R f'' := by
  intro id v hv
  obtain ⟨v', hv', hr⟩ := h id v hv
  obtain ⟨v'', hv'', hr'⟩ := h' id v' hv'
  refine ⟨v'', hv'', ?_⟩
  rcases hr with rfl | hr
  · exact hr'
  · rcases hr' with rfl | hr'
    · exact .inr hr
    · exact .inr (hR v v' v'' hr hr')

theorem Evolves.modify (hf : f.Orderly code) (hv : f.current? p = some v) {g : Instance → Instance}
    (hr : R v (g v)) : f.Evolves R (f.modify v.id g) := by
  intro id w hw
  rw [get?_modify]
  split
  · next heq =>
    rw [← heq, hf.get?_current hv, Option.some.injEq] at hw
    subst hw
    exact ⟨g v, by rw [← heq, hf.get?_current hv]; rfl, .inr hr⟩
  · exact ⟨w, hw, .inl rfl⟩

end Fetch

/-! ### Taken branches -/

/-- Holds a branch that was taken in the cycle. -/
structure Slot.Taken (s : Slot) (id : InstanceId) (cycle : Nat) : Prop where
  live : s.isLive = true
  ready : s.ready = true
  occupant : s.occupant = some id
  branch : s.instr.any (·.opcode.isBranch) = true
  result : s.result.any (· == 1.0) = true
  write : s.times.write = some cycle

/-- In this cycle a branch before the position was taken. -/
def Machine.Redirects (m : Machine) (p : Nat) : Prop :=
  ∃ s ∈ m.rob.window, ∃ id, s.Taken id m.cycle ∧ id.position < p

/-- A slot that has its result shows the times of its version. -/
def Stamped (m : Machine) : Prop :=
  ∀ s ∈ m.rob.window, s.ready = true → ∀ id v, s.occupant = some id → m.fetch.get? id = some v →
    v.times = s.times

section Slots

variable {code : List Instruction} {m m' : Machine} {i k : Nat} {st : Station} {s t : Slot} {v : Instance}
  {tag : Tag} {result : Word}

/-- The slot that waits for a result is no slot that has one. -/
theorem Machine.Awaits.occupant_ne (awaits : m.Awaits k s v) (h : Coherent code m) (ht : t ∈ m.rob.window)
    (hr : t.ready = true) : t.occupant ≠ some v.id := by
  intro ho
  have hready := awaits.not_ready
  rw [← h.slot_of_occupant ht awaits.mem (ho.trans awaits.occupant.symm), hr] at hready
  exact absurd hready (by simp)

/-- Progress of one slot leaves alone what has its result. -/
theorem Machine.Awaits.mem_revise (awaits : m.Awaits k s v) (h : Coherent code m) (ht : t ∈ m.rob.window)
    (hr : t.ready = true) (g : Slot → Slot) : t ∈ m.rob.window.map (Slot.revise v.id g) := by
  refine List.mem_map.2 ⟨t, ht, ?_⟩
  rw [Slot.revise, if_neg (awaits.occupant_ne h ht hr)]

/-- Slots stay, clock and all: what was taken shows. -/
theorem Machine.Redirects.mono {p q : Nat} (hr : m.Redirects p) (hpq : p ≤ q) (hc : m'.cycle = m.cycle)
    (hmem : ∀ s ∈ m.rob.window, ∀ id, s.Taken id m.cycle → s ∈ m'.rob.window) : m'.Redirects q := by
  obtain ⟨s, hs, id, taken, hlt⟩ := hr
  exact ⟨s, hmem s hs id taken, id, hc.symm ▸ taken, Nat.lt_of_lt_of_le hlt hpq⟩

/-- The branch that cancels is in the window, with its result of this cycle. -/
theorem Machine.Gives.taken (given : m.Gives i k st s v tag result m') (h : Coherent code m)
    (branch : st.opcode.any Opcode.isBranch = true) (taken : (result == 1.0) = true) :
    (s.holding m.cycle result).Taken v.id m.cycle where
  live := rfl
  ready := rfl
  occupant := given.occupant
  branch := by
    obtain ⟨hinstr, hserves⟩ := given.mans.serves h
    rw [hserves.opcode] at branch
    show s.instr.any _ = true
    rw [hinstr]
    exact branch
  result := taken
  write := rfl

theorem Machine.Gives.mem (given : m.Gives i k st s v tag result m') :
    s.holding m.cycle result ∈ m'.rob.window := by
  rw [given.window, List.mem_map]
  exact ⟨s, given.toAwaits.mem, if_pos given.occupant⟩

/-- The branch that cancels is not behind itself. -/
theorem Machine.Clears.mem_of_taken {b : Nat} (cleared : m.Clears b m') (ht : t ∈ m.rob.window)
    {id : InstanceId} (ho : t.occupant = some id) (hid : id.position ≤ b) : t ∈ m'.rob.window := by
  rw [cleared.window, List.mem_map]
  refine ⟨t, ht, Slot.cancelAfter_of_isAfter_eq_false ?_⟩
  simp [Slot.isAfter, ho, hid]

end Slots

/-! ### The times of a version -/

/-- Every slot of the window names a version that is there. -/
theorem Coherent.exists_version {code : List Instruction} {m : Machine} (h : Coherent code m) {s : Slot}
    (hs : s ∈ m.rob.window) : ∃ id v, s.occupant = some id ∧ m.fetch.get? id = some v := by
  cases hl : s.isLive with
  | true =>
    obtain ⟨v, ho, hv⟩ := h.exists_current hs hl
    exact ⟨v.id, v, ho, h.order.orderly.get?_current hv⟩
  | false =>
    obtain ⟨id, v, ho, hv, -⟩ := h.order.cancelled s hs hl
    exact ⟨id, v, ho, hv⟩

namespace Stamped

variable {code : List Instruction} {m m' : Machine} {i k : Nat} {st : Station} {s : Slot} {v : Instance}
  {tag : Tag} {result : Word}

theorem start (hw : m.rob.window = []) : Stamped m := by simp [Stamped, hw]

theorem of_core (h : Stamped m) (hcore : SameCore m m') : Stamped m' := by
  rw [Stamped, hcore.rob, hcore.fetch]
  exact h

/-- Another version moves on. -/
theorem of_modify (h : Stamped m) {t : Slot} (ht : t ∈ m.rob.window) (hr : t.ready = true)
    {id name : InstanceId} (hne : t.occupant ≠ some name) {g : Instance → Instance} {w : Instance}
    (ho : t.occupant = some id) (hw : (m.fetch.modify name g).get? id = some w) : w.times = t.times := by
  rw [Fetch.get?_modify, if_neg (by rintro rfl; exact hne ho)] at hw
  exact h t ht hr id w ho hw

theorem gives (h : Stamped m) (hcoh : Coherent code m) (given : m.Gives i k st s v tag result m') :
    Stamped m' := by
  intro t ht hr id w ho hw
  rw [given.fetch] at hw
  rcases given.mem_of_ready hcoh ht hr with rfl | hmem
  · obtain rfl := Option.some.inj (given.occupant.symm.trans ho)
    rw [Fetch.get?_modify, if_pos rfl, hcoh.order.orderly.get?_current given.current, Option.map_some,
      Option.some.injEq] at hw
    rw [← hw]
  · exact h.of_modify hmem hr (given.toAwaits.occupant_ne hcoh hmem hr) ho hw

theorem clears (h : Stamped m) (hcoh : Coherent code m) {b : Nat} (cleared : m.Clears b m') : Stamped m' := by
  intro t ht hr id w ho hw
  have hmem := cleared.mem_of_ready ht hr
  obtain ⟨name, x, hname, hx⟩ := hcoh.exists_version hmem
  obtain rfl := Option.some.inj (hname.symm.trans ho)
  rw [cleared.fetch, Fetch.get?_renewAfter hcoh.order.orderly b hx, Option.some.injEq] at hw
  rw [← h t hmem hr _ x ho hx, ← hw]
  split <;> rfl

theorem runs (h : Stamped m) (hcoh : Coherent code m) (run : m.Runs i k st s v m') : Stamped m' := by
  intro t ht hr id w ho hw
  have hmem := run.mem_of_ready hcoh ht hr
  rw [run.fetch] at hw
  split at hw
  · exact h.of_modify hmem hr (run.toAwaits.occupant_ne hcoh hmem hr) ho hw
  · exact h t hmem hr id w ho hw

theorem enters (h : Stamped m) (hcoh : Coherent code m) {left : Operand} {right : Option Operand}
    (entered : m.Enters v i st left right tag m') : Stamped m' := by
  intro t ht hr id w ho hw
  have hmem := entered.mem_of_ready ht hr
  rw [entered.fetch] at hw
  exact h.of_modify hmem hr (hcoh.order.occupant_ne_next entered.next t hmem) ho hw

theorem commits (h : Stamped m) (hcoh : Coherent code m) {rest : List Slot} (left : m.Leaves s rest m')
    (occupant : s.occupant = some v.id) {times : Times}
    (fetch : m'.fetch = m.fetch.modify v.id (Sequenced.moved .committed times)) : Stamped m' := by
  intro t ht hr id w ho hw
  have hne : t.occupant ≠ some v.id := occupant ▸ left.occupant_ne hcoh ht
  rw [fetch] at hw
  exact h.of_modify (left.mem ht) hr hne ho hw

theorem turn (h : Stamped m) (hcoh : Coherent code m) (ht : m.Turn m') : Stamped m' := by
  rcases ht with turn | turn | turn | turn
  case write =>
    cases turn with
    | idle => exact h
    | gives given => exact h.gives hcoh given
    | clears given cleared => exact (h.gives hcoh given).clears (hcoh.move given.move) cleared
  case execute =>
    cases turn with
    | rests | waits => exact h
    | runs run => exact h.runs hcoh run
  case issue =>
    cases turn with
    | ended | stalls => exact h
    | enters entered => exact h.enters hcoh entered
  case commit =>
    cases turn with
    | empty | early => exact h
    | commits left _ _ _ _ occupant _ _ fetch => exact h.commits hcoh left occupant fetch
    | discards left _ _ _ fetch =>
      intro t ht
      rw [fetch]
      exact h t (left.mem ht)

end Stamped

theorem Session.Reached.stamped {config : Config} {code : List Instruction} {trace : List Deed} {s : Session}
    (hc : config.Admitted) (h : Session.Reached config code trace s) : Stamped s.machine :=
  h.keeps_turns hc Stamped (fun _ hm => .start (fresh_of_initial hc hm).window)
    (fun _ _ hcore hs => hs.of_core hcore) fun _ _ hcoh hs ht => hs.turn hcoh ht

/-! ### The phases -/

/-- Each position has the version that it had in `f`, or the next one: then it waits behind a branch that was
taken in this cycle. -/
def Machine.Restarted (f : Fetch) (m : Machine) : Prop :=
  ∀ p id, f.idAt p = some id →
    m.fetch.idAt p = some id ∨ m.fetch.idAt p = some id.next ∧ m.fetch.pc ≤ p ∧ m.Redirects p

/-- No position has got another version, and the branches that were taken still show. -/
structure Machine.SameVersions (m m' : Machine) : Prop where
  idAt : m'.fetch.idAt = m.fetch.idAt
  redirects : ∀ p, m.Redirects p → m'.Redirects p

namespace Machine

variable {code : List Instruction} {f : Fetch} {m m' m'' : Machine} {i k : Nat} {st : Station} {s : Slot}
  {v : Instance} {tag : Tag} {result : Word}

theorem SameVersions.refl (m : Machine) : m.SameVersions m := ⟨rfl, fun _ h => h⟩

theorem SameVersions.trans (h : m.SameVersions m') (h' : m'.SameVersions m'') : m.SameVersions m'' :=
  ⟨h'.idAt.trans h.idAt, fun p hp => h'.redirects p (h.redirects p hp)⟩

/-! #### Write result -/

theorem Gives.sameVersions (given : m.Gives i k st s v tag result m') (h : Coherent code m) :
    m.SameVersions m' where
  idAt := by
    rw [given.fetch]
    exact h.order.idAt_promote given.current
  redirects p hp := hp.mono (Nat.le_refl p) given.move.steady.cycle fun t ht _ taken => by
    rw [given.window]
    exact given.toAwaits.mem_revise h ht taken.ready _

theorem Gives.evolves (given : m.Gives i k st s v tag result m') (h : Coherent code m) (hf : Faithful m) :
    m.fetch.Evolves (Instance.Resolves m.cycle) m'.fetch := by
  have hstage := hf.stage _ _ _ _ _ given.mans
  rw [if_pos given.last] at hstage
  rw [given.fetch]
  exact .modify h.order.orderly given.current (.written hstage rfl rfl)

/-- What a branch squashes was in flight. -/
theorem Clears.inFlight {b : Nat} (cleared : m.Clears b m') (h : Coherent code m) {id : InstanceId}
    {w : Instance} (hw : m.fetch.get? id = some w)
    (hsquashed : b < id.position ∧ w.stage ≠ .squashed ∧ w.stage ≠ .unissued) : w.stage.isInFlight = true := by
  obtain ⟨hb, hlive, hissued⟩ := hsquashed
  have hcurrent := h.order.orderly.current_of_get? hw hlive
  have hpc := (h.order.issued_iff hcurrent).1 hissued
  have hstage := (h.stage_eq hcurrent).2.1 (Nat.le_trans cleared.uncommitted (Nat.le_of_lt hb)) hpc
  rcases hstage with hs | hs | hs <;> rw [hs] <;> rfl

theorem Clears.evolves {b c : Nat} (cleared : m.Clears b m') (h : Coherent code m) :
    m.fetch.Evolves (Instance.Resolves c) m'.fetch := by
  intro id w hw
  rw [cleared.fetch, Fetch.get?_renewAfter h.order.orderly b hw]
  refine ⟨_, rfl, ?_⟩
  split
  · next hsquashed => exact .inr (.squashed (cleared.inFlight h hw hsquashed) rfl)
  · exact .inl rfl

/-- Behind a taken branch every position that had been issued gets its next version. -/
theorem Clears.restarted {b : Nat} (cleared : m.Clears b m') (h : Coherent code m) (hr : m.Restarted f)
    (branch : ∃ t ∈ m.rob.window, ∃ id, t.Taken id m.cycle ∧ id.position = b) : m'.Restarted f := by
  have hpc : m'.fetch.pc = b + 1 := by
    rw [cleared.fetch, h.order.pc_renewAfter cleared.issued]
  have hredirects : ∀ p, b < p → m'.Redirects p := by
    obtain ⟨t, ht, id, taken, rfl⟩ := branch
    exact fun p hp => ⟨t, cleared.mem_of_taken ht taken.occupant (Nat.le_refl _), id,
      cleared.move.steady.cycle ▸ taken, hp⟩
  intro p id hid
  rw [cleared.fetch, Fetch.idAt, Fetch.current?_renewAfter h.order.orderly, ← cleared.fetch, hpc]
  rcases hr p id hid with hsame | ⟨hnext, hle, -⟩
  · obtain ⟨w, hw, hwid⟩ := Option.map_eq_some_iff.1 hsame
    rw [hw, Option.map_some, Option.map_some]
    split
    · next hrenewed =>
      have hposition : w.id.position = p := h.order.orderly.position_current hw
      refine .inr ⟨?_, hrenewed.1, hredirects p hrenewed.1⟩
      rw [← hwid, InstanceId.next, hposition]
      rfl
    · exact .inl (congrArg some hwid)
  -- a position that was renewed before waits to be issued
  · obtain ⟨w, hw, hwid⟩ := Option.map_eq_some_iff.1 hnext
    have hlt : b < p := Nat.lt_of_lt_of_le cleared.issued hle
    rw [hw, Option.map_some, Option.map_some, if_neg fun hn => hn.2 (h.order.waiting p w hle hw)]
    exact .inr ⟨congrArg some hwid, hlt, hredirects p hlt⟩

theorem Restarted.gives (hr : m.Restarted f) (h : Coherent code m)
    (given : m.Gives i k st s v tag result m') : m'.Restarted f := by
  have hsame := given.sameVersions h
  intro p id hid
  rw [hsame.idAt, given.fetch]
  exact (hr p id hid).imp_right fun ⟨hnext, hle, hp⟩ => ⟨hnext, hle, hsame.redirects p hp⟩

theorem writeResults_versions (h : Coherent code m) (hf : Faithful m) (hs : Stamped m)
    (hm : m.writeResults = .ok m') : Faithful m' ∧ Stamped m' ∧
      m.fetch.Evolves (Instance.Resolves m.cycle) m'.fetch ∧ m'.Restarted m.fetch := by
  have hphase := writeResults_keeps (fun _ n => n.cycle = m.cycle ∧ Faithful n ∧ Stamped n ∧
    m.fetch.Evolves (Instance.Resolves m.cycle) n.fetch ∧ n.Restarted m.fetch) ?_ h
    ⟨rfl, hf, hs, .refl _, fun _ _ hid => .inl hid⟩ hm
  · exact hphase.2
  · intro i rest n n' hn ⟨hc, hfn, hsn, hev, hr⟩ turn
    refine ⟨turn.moves.steady.cycle.trans hc, hfn.turn hn (.write turn), hsn.turn hn (.write turn), ?_⟩
    have htrans : ∀ v v' v'' : Instance, v.Resolves m.cycle v' → v'.Resolves m.cycle v'' →
        v.Resolves m.cycle v'' := fun _ _ _ => .trans
    cases turn with
    | idle => exact ⟨hev, hr⟩
    | gives given => exact ⟨hev.trans htrans (hc ▸ given.evolves hn hfn), hr.gives hn given⟩
    | clears given cleared branch taken =>
      have hmiddle := hn.move given.move
      refine ⟨(hev.trans htrans (hc ▸ given.evolves hn hfn)).trans htrans (cleared.evolves hmiddle),
        cleared.restarted hmiddle (hr.gives hn given) ⟨_, given.mem, _, ?_, rfl⟩⟩
      rw [given.move.steady.cycle]
      exact given.taken hn branch taken

/-! #### Execute -/

theorem Runs.sameVersions (run : m.Runs i k st s v m') (h : Coherent code m) : m.SameVersions m' where
  idAt := by
    rw [run.fetch]
    split
    · exact h.order.idAt_promote run.current
    · rfl
  redirects p hp := hp.mono (Nat.le_refl p) run.moves.steady.cycle fun t ht _ taken => by
    rw [run.window]
    exact run.toAwaits.mem_revise h ht taken.ready _

theorem Runs.evolves (run : m.Runs i k st s v m') (h : Coherent code m) (hf : Faithful m) :
    m.fetch.Evolves Instance.Completes m'.fetch := by
  have hstage := hf.stage _ _ _ _ _ run.mans
  rw [if_neg run.more] at hstage
  rw [run.fetch]
  split
  · exact .modify h.order.orderly run.current ⟨hstage, rfl⟩
  · exact .refl _

theorem execute_versions (h : Coherent code m) (hf : Faithful m) (hs : Stamped m)
    (hm : m.execute = .ok m') :
    Stamped m' ∧ m.fetch.Evolves Instance.Completes m'.fetch ∧ m.SameVersions m' := by
  have hphase := execute_keeps (fun _ n => Faithful n ∧ Stamped n ∧
    m.fetch.Evolves Instance.Completes n.fetch ∧ m.SameVersions n) ?_ h ⟨hf, hs, .refl _, .refl m⟩ hm
  · exact hphase.2
  · intro i rest n n' hn _ ⟨hfn, hsn, hev, hsame⟩ turn
    refine ⟨hfn.turn hn (.execute turn), hsn.turn hn (.execute turn), ?_⟩
    cases turn with
    | rests => exact ⟨hev, hsame⟩
    | waits => exact ⟨hev, hsame.trans ⟨rfl, fun _ hp => hp⟩⟩
    | runs run =>
      refine ⟨hev.trans (fun v v' v'' hv hv' => ?_) (run.evolves hn hfn), hsame.trans (run.sameVersions hn)⟩
      have hstage := hv'.1
      rw [hv.2] at hstage
      simp at hstage

/-! #### Issue and commit -/

theorem IssueTurn.versions (turn : m.IssueTurn m') (h : Coherent code m) :
    m.fetch.Evolves Instance.Enters m'.fetch ∧ m.SameVersions m' := by
  cases turn with
  | ended => exact ⟨.refl _, .refl m⟩
  | stalls => exact ⟨.refl _, rfl, fun _ hp => hp⟩
  | @enters v i st left right tag m' entered =>
    have hcurrent : m.fetch.current? v.id.position = some v := by
      rw [show v.id.position = m.fetch.pc from h.order.orderly.position_current entered.next]
      exact entered.next
    have hunissued := h.order.waiting _ _ (Nat.le_refl _) entered.next
    rw [entered.fetch]
    refine ⟨Fetch.Evolves.modify h.order.orderly hcurrent ⟨hunissued, rfl⟩, ?_, fun p hp => ?_⟩
    · rw [entered.fetch]
      exact h.order.idAt_promote hcurrent
    · refine hp.mono (Nat.le_refl p) entered.move.steady.cycle fun t ht _ _ => ?_
      rw [entered.window]
      exact List.mem_append_left _ ht

/-- The head was written in an earlier cycle, so it is no branch that was taken in this one. -/
theorem CommitTurn.versions (turn : m.CommitTurn m') (h : Coherent code m) (hs : Stamped m) :
    m.fetch.Evolves (Instance.Retires m.cycle) m'.fetch ∧ m.SameVersions m' := by
  cases turn with
  | empty | early => exact ⟨.refl _, .refl m⟩
  | @commits t rest w _ left move shows live may occupant current _ fetch =>
    have ht := left.mem_head
    obtain ⟨hready, c, hwrite, hlt⟩ : t.ready = true ∧ ∃ c, t.times.write = some c ∧ c < m.cycle := by
      simpa [mayCommit, Option.any_eq_true] using may
    have hstage := h.order.stage_of_live ht live occupant current
    have htimes := hs t ht hready _ _ occupant (h.order.orderly.get?_current current)
    rw [if_pos hready] at hstage
    rw [fetch]
    refine ⟨.modify h.order.orderly current ⟨hstage, rfl, c, hlt, htimes ▸ hwrite⟩, ?_, fun p hp => ?_⟩
    · rw [fetch]
      exact h.order.idAt_promote current
    · refine hp.mono (Nat.le_refl p) move.steady.cycle fun u hu _ taken => ?_
      rw [left.head, List.mem_cons, ← left.window] at hu
      refine hu.resolve_left fun he => ?_
      have hnow := taken.write
      rw [he, hwrite, Option.some.injEq] at hnow
      omega
  | @discards t rest _ left move _ dead fetch =>
    rw [fetch]
    refine ⟨.refl _, by rw [fetch], fun p hp => ?_⟩
    refine hp.mono (Nat.le_refl p) move.steady.cycle fun u hu _ taken => ?_
    rw [left.head, List.mem_cons, ← left.window] at hu
    refine hu.resolve_left fun he => ?_
    have hlive := taken.live
    rw [he, dead] at hlive
    simp at hlive

end Machine

/-! ### The cycle -/

/-- The four phases together: what one of them has moved, none after it moves any further in the same cycle. -/
theorem Instance.becomes {c : Nat} {v written executed issued last : Instance}
    (hw : written = v ∨ v.Resolves c written) (hx : executed = written ∨ written.Completes executed)
    (hi : issued = executed ∨ executed.Enters issued) (hc : last = issued ∨ issued.Retires c last) :
    v.stage.Becomes last.stage ∧ (v.stage.isFinal = true → last = v) := by
  have hstill : ∀ {x y z u : Instance}, (y = x ∨ x.Completes y) → (z = y ∨ y.Enters z) →
      (u = z ∨ z.Retires c u) → x.stage ≠ .issued → x.stage ≠ .unissued →
      (x.stage = .written → x.times.write = some c) → u = x := by
    intro x y z u hx hi hc hissued hunissued hnow
    obtain rfl := hx.resolve_right fun h => hissued h.1
    obtain rfl := hi.resolve_right fun h => hunissued h.1
    refine hc.resolve_right fun hretires => ?_
    obtain ⟨hwritten, _, w, hlt, hw⟩ := hretires
    rw [hnow hwritten, Option.some.injEq] at hw
    omega
  rcases hw with rfl | ⟨before, after, now⟩ | ⟨before, after⟩
  · rcases hx with rfl | ⟨before, after⟩
    · rcases hi with rfl | ⟨before, after⟩
      · rcases hc with rfl | ⟨before, after, -⟩
        · exact ⟨.stays, fun _ => rfl⟩
        · rw [before, after]
          exact ⟨.advances .commit, by simp [Stage.isFinal]⟩
      · obtain rfl := hc.resolve_right fun hr => absurd hr.1 (by simp [after])
        rw [before, after]
        exact ⟨.advances .issue, by simp [Stage.isFinal]⟩
    · obtain rfl := hi.resolve_right fun he => absurd he.1 (by simp [after])
      obtain rfl := hc.resolve_right fun hr => absurd hr.1 (by simp [after])
      rw [before, after]
      exact ⟨.advances .execute, by simp [Stage.isFinal]⟩
  · obtain rfl := hstill hx hi hc (by simp [after]) (by simp [after]) fun _ => now
    rw [before, after]
    exact ⟨.advances .write, by simp [Stage.isFinal]⟩
  · obtain rfl := hstill hx hi hc (by simp [after]) (by simp [after]) (by simp [after])
    rw [after]
    refine ⟨.squashed before, fun hf => ?_⟩
    cases hs : v.stage <;> simp [hs, Stage.isFinal, Stage.isInFlight] at before hf

section Cycle

variable {code : List Instruction} {m m' : Machine}

theorem Coherent.versions_runCycle (h : Coherent code m) (hf : Faithful m) (hs : Stamped m)
    (hm : m.runCycle = .ok m') :
    (∀ id v, m.fetch.get? id = some v → ∃ v', m'.fetch.get? id = some v' ∧
      v.stage.Becomes v'.stage ∧ (v.stage.isFinal = true → v' = v)) ∧
    ∀ p id, m.fetch.idAt p = some id →
      m'.fetch.idAt p = some id ∨ m'.fetch.idAt p = some id.next ∧ m'.Redirects p := by
  obtain ⟨written, executed, issued, last, hw, hwritten, hx, hexecuted, -, hit, hissued, -, hct, -, rfl⟩ :=
    runCycle_phases h hm
  have hmoves := (writeResults_moves h.tick hw).trans (execute_moves hwritten hx)
  have hcycle : issued.cycle = m.tick.cycle := hit.moves.steady.cycle.trans hmoves.steady.cycle
  obtain ⟨hfw, hsw, hevolved, hrestarted⟩ :=
    writeResults_versions h.tick (hf.of_core m.sameCore_tick) (hs.of_core m.sameCore_tick) hw
  obtain ⟨hsx, hcompleted, hsamex⟩ := execute_versions hwritten hfw hsw hx
  obtain ⟨hentered, hsamei⟩ := hit.versions hexecuted
  obtain ⟨hretired, hsamec⟩ := hct.versions hissued (hsx.turn hexecuted (.issue hit))
  have hsame := (hsamex.trans hsamei).trans hsamec
  have hcore := last.sameCore_settle
  constructor
  · intro id v hv
    obtain ⟨v₁, hv₁, hr₁⟩ := hevolved id v hv
    obtain ⟨v₂, hv₂, hr₂⟩ := hcompleted id v₁ hv₁
    obtain ⟨v₃, hv₃, hr₃⟩ := hentered id v₂ hv₂
    obtain ⟨v₄, hv₄, hr₄⟩ := hretired id v₃ hv₃
    refine ⟨v₄, ?_, Instance.becomes hr₁ hr₂ hr₃ (hcycle ▸ hr₄)⟩
    rwa [hcore.fetch]
  · intro p id hid
    rw [hcore.fetch, hsame.idAt]
    refine (hrestarted p id hid).imp_right fun ⟨hnext, _, hp⟩ => ⟨hnext, ?_⟩
    exact (hsame.redirects p hp).mono (Nat.le_refl p) last.cycle_settle fun t ht _ _ => hcore.rob ▸ ht

end Cycle

/-! ### The list of versions -/

/-- The versions of a position: numbered from zero, of its instruction, the last one current and the others
squashed. -/
structure History.Versioned (h : History) (code : List Instruction) (p : Nat) : Prop where
  version : ∀ (k : Nat) (v : Instance), h.versions[k]? = some v →
    v.version = k ∧ v.position = p ∧ code[p]? = some v.instr
  past : ∀ (k : Nat) (v : Instance), h.versions[k]? = some v → k + 1 < h.versions.length → v.stage = .squashed
  last : h.versions.getLast? = some h.current
  current : h.current.stage ≠ .squashed

theorem History.length_versions (h : History) : h.versions.length = h.past.length + 1 := by simp [versions]

theorem History.Numbered.versioned {h : History} {code : List Instruction} {i : Instruction} {p : Nat}
    (hn : h.Numbered i p) (hi : code[p]? = some i) : h.Versioned code p where
  version k v hv := by
    obtain ⟨rfl, hposition, hversion⟩ := hn.version? hv
    exact ⟨hversion, hposition, hi⟩
  past k v hv hlt := by
    have hversion := h.version?_eq k
    rw [show h.version? k = some v from hv, if_neg (by rw [h.length_versions] at hlt; omega)] at hversion
    exact (hn.past k v hversion.symm).2.2.2
  last := by simp [versions]
  current := hn.current.2.2.2

/-- Every position has its versions, looked up by their numbers; the current one is the last of them. -/
theorem Fetch.Orderly.exists_versioned {f : Fetch} {code : List Instruction} {p : Nat} (hf : f.Orderly code)
    (hp : p < code.length) : ∃ h, f.histories[p]? = some h ∧ h.Versioned code p ∧
      (∀ k, f.get? ⟨p, k⟩ = h.versions[k]?) ∧ f.idAt p = some ⟨p, h.past.length⟩ := by
  obtain ⟨v, hv⟩ := hf.exists_current hp
  obtain ⟨h, hh, rfl⟩ := exists_history hv
  obtain ⟨i, hi, hn⟩ := hf.numbered p h hh
  refine ⟨h, hh, hn.versioned hi, fun k => ?_, ?_⟩
  · rw [get?, hh]
    rfl
  · rw [idAt, hv, Option.map_some, Instance.id, hn.current.2.1, hn.current.2.2.1]

/-- From one step to the next every version stays in its place and moves on by one stage at most, or is squashed
while it is in flight; what is squashed or committed never changes again. A position gets at most one version
more, and only behind a branch taken in this very cycle. -/
theorem versions_follow_life_cycle {config : Config} {code : List Instruction} {trace : List Deed}
    {s s' : Session} (hc : config.Admitted) (h : Session.Reached config code trace s)
    (hstep : s.step = .ok (s', .ok ())) {p : Nat} (hp : p < code.length) : ∃ hist hist' : History,
      s.machine.fetch.histories[p]? = some hist ∧ s'.machine.fetch.histories[p]? = some hist' ∧
      hist.Versioned code p ∧ hist'.Versioned code p ∧
      (∀ (k : Nat) (v : Instance), hist.versions[k]? = some v → ∃ v', hist'.versions[k]? = some v' ∧
        v.stage.Becomes v'.stage ∧ (v.stage.isFinal = true → v' = v)) ∧
      (hist'.versions.length = hist.versions.length ∨
        hist'.versions.length = hist.versions.length + 1 ∧ s'.machine.Redirects p) := by
  have hcoh := h.coherent hc
  have hcoh' := (h.step hstep).coherent hc
  obtain ⟨hist, hhist, hversioned, hget, hid⟩ := hcoh.order.orderly.exists_versioned hp
  obtain ⟨hist', hhist', hversioned', hget', hid'⟩ := hcoh'.order.orderly.exists_versioned hp
  refine ⟨hist, hist', hhist, hhist', hversioned, hversioned', ?_⟩
  rcases Session.step_eq hstep with ⟨-, rfl⟩ | ⟨-, m, hm, he⟩
  · obtain rfl := Option.some.inj (hhist.symm.trans hhist')
    exact ⟨fun k v hk => ⟨v, hk, .stays, fun _ => rfl⟩, .inl rfl⟩
  · obtain ⟨hversions, hids⟩ := hcoh.versions_runCycle (h.faithful hc) (h.stamped hc) hm
    rw [he] at hget' hid' ⊢
    refine ⟨fun k v hk => ?_, ?_⟩
    · rw [← hget']
      exact hversions ⟨p, k⟩ v (hget k ▸ hk)
    · rw [hist.length_versions, hist'.length_versions]
      refine (hids p _ hid).imp (fun hsame => ?_) fun ⟨hnext, hp⟩ => ⟨?_, hp⟩
      · have hsame := hid'.symm.trans hsame
        simpa using hsame
      · have hnext := hid'.symm.trans hnext
        simpa [InstanceId.next] using hnext

/-- The fourth cycle takes the branch and squashes the addition behind it, which starts over. -/
theorem versions_follow_life_cycle_branch : ∃ (config : Config) (code : List Instruction)
    (trace : List Deed) (s s' : Session) (hist hist' : History), config.Admitted ∧
      Session.Reached config code trace s ∧ s.step = .ok (s', .ok ()) ∧
      s.machine.fetch.histories[1]? = some hist ∧ s'.machine.fetch.histories[1]? = some hist' ∧
      hist.versions.map Instance.stage = [.executed] ∧
      hist'.versions.map Instance.stage = [.squashed, .issued] ∧ s'.machine.Redirects 1 := by
  let branch : Instruction := ⟨.beq, none, ⟨0⟩, some ⟨0⟩, 1, []⟩
  let add : Instruction := ⟨.add, some ⟨1⟩, ⟨2⟩, some ⟨3⟩, 0, []⟩
  let config : Config := { Config.standard with memorySize := 0 }
  have hadmitted : config.Admitted := ⟨by decide, by decide, by decide⟩
  let stages (s : Session) : Option (List Stage) :=
    s.machine.fetch.histories[1]?.map fun h => h.versions.map Instance.stage
  have hrun : ∃ r ∈ Session.tracedRun config [branch, add] 3, stages r.2 = some [.executed] ∧
      ∃ next ∈ r.2.traced 1, stages next.2 = some [.squashed, .issued] := by
    decide +kernel
  obtain ⟨⟨trace, s⟩, hr, hbefore, ⟨more, s'⟩, hnext, hafter⟩ := hrun
  have hreached := Session.Reached.of_tracedRun hr
  have hstep := Session.step_of_traced hnext
  obtain ⟨hist, hist', hhist, hhist', -, -, -, hgrows⟩ :=
    versions_follow_life_cycle hadmitted hreached hstep (p := 1) (by decide)
  simp only [stages, hhist, hhist', Option.map_some, Option.some.injEq] at hbefore hafter
  have hone : hist.versions.length = 1 := by simpa using congrArg List.length hbefore
  have htwo : hist'.versions.length = 2 := by simpa using congrArg List.length hafter
  refine ⟨config, _, trace, s, s', hist, hist', hadmitted, hreached, hstep, hhist, hhist', hbefore,
    hafter, (hgrows.resolve_left fun hsame => ?_).2⟩
  omega

end OutOfOrder
