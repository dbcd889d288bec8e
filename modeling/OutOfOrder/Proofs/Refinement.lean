import OutOfOrder.Proofs.CommitOrder
import OutOfOrder.Proofs.Recording

/-!
The architectural registers are those of the committed instructions, run in program order on a plain
register file. The result of the head was computed from operands that only the register file provides, and
so committing it is one more instruction of that run.
-/

set_option autoImplicit false

namespace OutOfOrder

theorem retirements_append (trace d : List Deed) :
    retirements (trace ++ d) = retirements trace ++ retirements d := List.filterMap_append

/-- The station of the computation held the instruction with the operands of the evaluation, and the same came
of them. -/
structure Computation.Shows (c : Computation) (i : Instruction) (e : Evaluation) : Prop where
  opcode : c.station.opcode = some i.opcode
  imm : c.station.imm = i.imm
  left : c.station.left = some (.resolved e.left)
  right : c.station.right = e.right.map .resolved
  result : c.result = e.result

theorem Computation.Valid.evaluate {c : Computation} (hv : c.Valid) {i : Instruction}
    {regs : RegisterFile} (hs : Serves (fun r => .resolved (regs.read r)) i c.station) :
    ∃ e, i.evaluate regs c.result = .ok e ∧ c.Shows i e := by
  obtain ⟨op, computed, memory, hop, hresult, hc⟩ := hv
  have hleft : Station.operandValue c.station.left = i.left regs := by
    rw [hs.left]
    rfl
  have hright : Station.operandValue c.station.right = (i.right regs).getD 0.0 := by
    rw [hs.right, Instruction.right]
    cases i.sources.2 <;> rfl
  have hopi : op = i.opcode := Option.some.inj (hop.symm.trans hs.opcode)
  have hcompute : i.compute regs = .ok computed := by
    rw [Station.result, hs.opcode, hleft, hright, hs.imm] at hresult
    exact hresult
  refine ⟨⟨i.left regs, i.right regs, c.result⟩, ?_, hs.opcode, hs.imm, hs.left, ?_, rfl⟩
  · have hr : i.resultOf regs computed c.result = c.result := by
      rw [hright, hopi] at hc
      unfold Instruction.resultOf
      cases ho : i.opcode <;> simp_all [Memory.access]
    rw [Instruction.evaluate, hcompute]
    simp [Except.map, hr]
  · rw [hs.right, Instruction.right, Option.map_map]
    rfl

/-- The architectural registers are those of a run in program order, and every committed version computed
what that run evaluates. -/
structure Refines (start : RegisterFile) (code : List Instruction) (trace : List Deed) (m : Machine) :
    Prop where
  recorded : Recorded (computations trace) m
  length_eq : (retirements trace).length = m.commits.toList.length
  replayed : ∃ es, replay start (code.zip (retirements trace)) = .ok (es, m.registers) ∧
    es.map Evaluation.result = retirements trace ∧
    ∀ (p : Nat) (i : Instruction) (e : Evaluation), code[p]? = some i → es[p]? = some e →
      ∃ c ∈ computations trace, m.commits.toList[p]? = some c.id ∧ c.Shows i e

theorem zip_concat {code : List Instruction} {words : List Word} {i : Instruction}
    (hi : code[words.length]? = some i) (word : Word) :
    code.zip (words ++ [word]) = code.zip words ++ [(i, word)] := by
  induction words generalizing code with
  | nil =>
    cases code with
    | nil => simp at hi
    | cons j rest => simp_all
  | cons w words ih =>
    cases code with
    | nil => simp at hi
    | cons j rest =>
      rw [List.length_cons, List.getElem?_cons_succ] at hi
      simp [ih hi]

namespace Refines

variable {start : RegisterFile} {code : List Instruction} {trace : List Deed} {m m' : Machine}

theorem of_eq (h : Refines start code trace m) {d : List Deed} (hd : retirements d = [])
    (hrecorded : Recorded (computations (trace ++ d)) m') (hregisters : m'.registers = m.registers)
    (hcommits : m'.commits = m.commits) : Refines start code (trace ++ d) m' := by
  have hr : retirements (trace ++ d) = retirements trace := by
    rw [retirements_append, hd, List.append_nil]
  obtain ⟨es, hreplay, hresults, hshown⟩ := h.replayed
  refine ⟨hrecorded, by rw [hr, hcommits, h.length_eq], es, by rw [hr, hregisters, hreplay],
    by rw [hr, hresults], fun p i e hi hp => ?_⟩
  obtain ⟨c, hc, hid, hshows⟩ := hshown p i e hi hp
  refine ⟨c, ?_, by rw [hcommits, hid], hshows⟩
  rw [computations_append]
  exact List.mem_append_left _ hc

/-- The head computed from what the register file holds when it commits. -/
theorem commit (h : Refines start code trace m) (hcoh : Coherent code m) {s : Slot} {rest : List Slot}
    {v : Instance} {tag : Tag} {value : Word} {rob : ReorderBuffer} {physical : PhysicalFile}
    (done : m.Commits s rest v tag value rob physical)
    (hregisters : m'.registers = m.registers.write s.arch value)
    (hcommits : m'.commits = m.commits.push v.id)
    (hrecorded : Recorded (computations (trace ++ [.retired value])) m') :
    Refines start code (trace ++ [.retired value]) m' := by
  obtain ⟨id, i, ho, hi, hinstr, harch⟩ := hcoh.order.holds s (by rw [done.head]; exact List.mem_cons_self ..)
  obtain rfl := Option.some.inj (done.occupant.symm.trans ho)
  obtain ⟨c, hc, hco, hcr, -, hfed⟩ :=
    h.recorded.written 0 s (by rw [done.head]; rfl) done.live done.ready
  have hid : c.id = v.id := Option.some.inj (hco.symm.trans done.occupant)
  obtain rfl := Option.some.inj (done.result.symm.trans hcr)
  rw [done.position] at hi
  rw [done.head] at hfed
  obtain ⟨e, he, hshows⟩ := (h.recorded.valid c hc).evaluate (hfed.head hinstr)
  obtain ⟨es, hreplay, hresults, hshown⟩ := h.replayed
  have hr : retirements (trace ++ [.retired c.result]) = retirements trace ++ [c.result] := by
    rw [retirements_append]
    rfl
  have hlen : es.length = m.commits.toList.length := by
    rw [← h.length_eq, ← hresults, List.length_map]
  have hlist : m'.commits.toList = m.commits.toList ++ [c.id] := by
    rw [hcommits, Array.toList_push, hid]
  refine ⟨hrecorded, ?_, es ++ [e], ?_, ?_, ?_⟩
  · rw [hr, hlist, List.length_append, List.length_append, h.length_eq]
    rfl
  · rw [hr, zip_concat (h.length_eq ▸ hi), hregisters, harch, hshows.result]
    exact replay_append hreplay (hshows.result ▸ he)
  · rw [hr, List.map_append, hresults, List.map_singleton, hshows.result]
  · intro p j e' hj hp
    rw [computations_append, hlist]
    by_cases hlt : p < es.length
    · rw [List.getElem?_append_left hlt] at hp
      obtain ⟨x, hx, hxid, hxs⟩ := hshown p j e' hj hp
      exact ⟨x, List.mem_append_left _ hx, by rw [List.getElem?_append_left (by omega), hxid], hxs⟩
    · rw [List.getElem?_append_right (by omega), List.getElem?_singleton] at hp
      split at hp
      · obtain rfl := Option.some.inj hp
        obtain rfl : p = m.commits.toList.length := by omega
        obtain rfl := Option.some.inj (hj.symm.trans hi)
        exact ⟨c, List.mem_append_left _ hc, List.getElem?_concat_length, hshows⟩
      · simp at hp

theorem move (h : Refines start code trace m) (hcoh : Coherent code m) {d : List Deed}
    (hm : m.Move d m') : Refines start code (trace ++ d) m' := by
  have hrecorded : Recorded (computations (trace ++ d)) m' := by
    rw [computations_append]
    exact h.recorded.move hcoh hm
  cases hcoh.change hm
  case commit done => exact h.commit hcoh done rfl rfl hrecorded
  all_goals exact h.of_eq rfl hrecorded rfl rfl

end Refines

theorem Session.Reached.refines {config : Config} {code : List Instruction} {trace : List Deed}
    {s : Session} (hc : config.Admitted) (h : Session.Reached config code trace s) :
    Refines (Machine.initialRegisters config) code trace s.machine := by
  refine h.keeps hc (Refines (Machine.initialRegisters config) code) ?_ ?_
    fun trace m d m' hcoh hr hm => hr.move hcoh hm
  · intro m hm
    obtain ⟨rob, hr, rfl⟩ := Machine.initial_eq hm
    have hw := (ReorderBuffer.contiguous_ofCapacity hc.capacity_le hr).2
    have hs := Machine.sameCore_settle
      { fetch := .ofCode code, registers := Machine.initialRegisters config
        physical := .ofCount config.physCount, aliases := .empty, rob
        stations := .ofCounts config.stations, memory := Machine.initialMemory config
        counters := .zero, finishedAt := none, commits := #[], events := #[] }
    refine ⟨.start _ (by rw [hs.rob]; exact hw), by rw [hs.commits]; rfl, [], ?_, rfl, by simp⟩
    rw [hs.registers]
    cases code <;> rfl
  · intro trace m m' hs hr
    have hrecorded := hr.recorded.of_eq hs.rob hs.fetch hs.registers
    have he := hr.of_eq (d := []) rfl (by rwa [List.append_nil]) hs.registers hs.commits
    rwa [List.append_nil] at he

theorem Coherent.position_of_commit {code : List Instruction} {m : Machine} (h : Coherent code m)
    {p : Nat} {id : InstanceId} (hp : m.commits.toList[p]? = some id) : id.position = p := by
  have hlt : p < m.commits.toList.length := (List.getElem?_eq_some_iff.1 hp).1
  have hle := h.order.commits_le
  have hpc := h.order.pc_le
  have hid := congrArg (fun ids => ids[p]?) h.order.commits_eq
  simp only [List.getElem?_map, hp, Option.map_some, List.getElem?_range hlt, Option.some.injEq] at hid
  obtain ⟨v, -, hv, hpos⟩ := h.order.idAt_eq (show p < code.length by omega)
  rw [hv] at hid
  rw [Option.some.inj hid, hpos]

/-- The committed instructions, run in program order on the initial registers, make the architectural
registers. Each gives the value that it committed, and the one station that computed it held the operands
that it reads in this run; a load takes the value that it committed. -/
theorem registers_refine_program_order {config : Config} {code : List Instruction} {trace : List Deed}
    {s : Session} (hc : config.Admitted) (h : Session.Reached config code trace s) :
    let m := s.machine
    let c := m.counters.committed
    let start := Machine.initialRegisters config
    (retirements trace).length = c ∧
    ((computations trace).map Computation.id).Nodup ∧
    (∃ es, replay start ((code.take c).zip (retirements trace)) = .ok (es, m.registers) ∧
      es.map Evaluation.result = retirements trace ∧
      ∀ (p : Nat) (i : Instruction) (e : Evaluation), code[p]? = some i → es[p]? = some e →
        ∃ x ∈ computations trace, m.commits.toList[p]? = some x.id ∧ x.id.position = p ∧ x.Shows i e) ∧
    (m.isComplete = true → (∀ i ∈ code, i.opcode ≠ .load) →
      ∃ es, replay start (code.map fun i => (i, 0.0)) = .ok (es, m.registers)) := by
  intro m c start
  have hcoh : Coherent code m := h.coherent hc
  have hfin : Finished code m := h.finished hc
  have hr : Refines start code trace m := h.refines hc
  have hcount : c = m.commits.toList.length := hfin.counted
  obtain ⟨es, hreplay, hresults, hshown⟩ := hr.replayed
  have hlen : (retirements trace).length = c := hr.length_eq.trans hcount.symm
  refine ⟨hlen, hr.recorded.nodup, ⟨es, ?_, hresults, fun p i e hi hp => ?_⟩, fun hdone hno => ⟨es, ?_⟩⟩
  · have hle : (retirements trace).length ≤ code.length := by
      have hcommits := hcoh.order.commits_le
      have hpc := hcoh.order.pc_le
      omega
    rw [List.zip_eq_zip_take_min, Nat.min_eq_right hle, List.take_length, hlen] at hreplay
    exact hreplay
  · obtain ⟨x, hx, hid, hshows⟩ := hshown p i e hi hp
    exact ⟨x, hx, hid, hcoh.position_of_commit hid, hshows⟩
  · have hall : (retirements trace).length = code.length :=
      hr.length_eq.trans (hfin.complete_iff.1 hdone)
    rw [← replay_without_load hno hall]
    exact hreplay

/-- An addition is issued again behind a taken branch. Two versions of it have computed, one has committed, and its
register holds the sum. -/
theorem registers_refine_program_order_branch : ∃ (config : Config) (code : List Instruction)
    (trace : List Deed) (s : Session), config.Admitted ∧ Session.Reached config code trace s ∧
      s.isComplete = true ∧ s.machine.counters.squashed = 1 ∧ (computations trace).length = 3 ∧
      s.machine.registers.read ⟨1⟩ = 5.0 ∧
      (∃ e x, e.result = 5.0 ∧ x ∈ computations trace ∧ x.id = ⟨1, 1⟩ ∧
        x.Shows ⟨.addi, some ⟨1⟩, ⟨2⟩, none, 3, []⟩ e) ∧
      ∃ es, replay (Machine.initialRegisters config) (code.map fun i => (i, 0.0)) =
        .ok (es, s.machine.registers) := by
  let branch : Instruction := ⟨.beq, none, ⟨0⟩, some ⟨0⟩, 1, []⟩
  let add : Instruction := ⟨.addi, some ⟨1⟩, ⟨2⟩, none, 3, []⟩
  let config : Config := { Config.standard with memorySize := 0 }
  have hadmitted : config.Admitted := ⟨by decide, by decide, by decide⟩
  have hrun : ∃ r ∈ Session.tracedRun config [branch, add] 12, r.2.isComplete = true ∧
      r.2.machine.counters.squashed = 1 ∧ (computations r.1).length = 3 ∧
      r.2.machine.registers.read ⟨1⟩ = 5.0 ∧ retirements r.1 = [1.0, 5.0] ∧
      r.2.machine.commits.toList = [⟨0, 0⟩, ⟨1, 1⟩] := by
    decide +kernel
  obtain ⟨⟨trace, s⟩, hr, hcomplete, hsquashed, hlength, hread, hretired, hcommits⟩ := hrun
  have hreached := Session.Reached.of_tracedRun hr
  obtain ⟨-, -, ⟨es, -, hresults, hshown⟩, hregisters⟩ := registers_refine_program_order hadmitted hreached
  have hno : ∀ i ∈ [branch, add], i.opcode ≠ .load := by decide
  obtain ⟨e, he, hresult⟩ : ∃ e, es[1]? = some e ∧ e.result = 5.0 := by
    rw [← Option.map_eq_some_iff, ← List.getElem?_map, hresults]
    exact congrArg (·[1]?) hretired
  obtain ⟨x, hx, hid, -, hshows⟩ := hshown 1 add e rfl he
  have hsecond : s.machine.commits.toList[1]? = some ⟨1, 1⟩ := congrArg (·[1]?) hcommits
  exact ⟨config, _, trace, s, hadmitted, hreached, hcomplete, hsquashed, hlength, hread,
    ⟨e, x, hresult, hx, Option.some.inj (hid.symm.trans hsecond), hshows⟩, hregisters hcomplete hno⟩

end OutOfOrder
