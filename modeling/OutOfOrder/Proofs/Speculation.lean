import OutOfOrder.Proofs.MemoryOrder

/-!
Memory in a run with branches. A store takes effect when its station writes, whether or not the branches before
it have been decided, and a taken branch leaves memory alone: what a store wrote stays when it is squashed.
-/

set_option autoImplicit false

namespace OutOfOrder

theorem Computation.perform_of_not_isStore {c : Computation} (h : c.isStore = false) (memory : Memory) :
    (c.perform memory).2 = memory := by
  unfold isStore at h
  unfold perform
  cases ho : c.station.opcode with
  | none => rfl
  | some op =>
    cases c.station.result with
    | error => rfl
    | ok => cases op <;> simp_all [Memory.access]

/-- Only the stores count. -/
theorem memoryAfter_filter {p : Computation → Bool} {cs : List Computation}
    (h : ∀ c ∈ cs, c.isStore = true → p c = true) (memory : Memory) :
    memoryAfter memory (cs.filter p) = memoryAfter memory cs := by
  induction cs generalizing memory with
  | nil => rfl
  | cons c rest ih =>
    have hrest := ih (fun d hd => h d (List.mem_cons_of_mem c hd))
    rw [List.filter_cons]
    split
    · exact hrest _
    · next hp =>
      have hc : c.isStore = false := by
        by_contra hs
        exact hp (h c (List.mem_cons_self ..) (by simpa using hs))
      show _ = memoryAfter (c.perform memory).2 rest
      rw [hrest, Computation.perform_of_not_isStore hc]

/-- Memory is what the computations so far have made of it, and each of them found what those before it left. -/
structure Deposited (memory : Memory) (cs : List Computation) (m : Machine) : Prop where
  truthful : Truthful memory cs
  memory_eq : m.memory = memoryAfter memory cs

namespace Deposited

variable {code : List Instruction} {memory : Memory} {cs : List Computation} {m m' : Machine}

theorem rest (h : Deposited memory cs m) (hmemory : m'.memory = m.memory) : Deposited memory cs m' where
  truthful := h.truthful
  memory_eq := by rw [hmemory, h.memory_eq]

theorem compute (h : Deposited memory cs m) {c : Computation}
    (hc : c.perform m.memory = (c.result, m'.memory)) : Deposited memory (cs ++ [c]) m' where
  truthful := h.truthful.concat (by rw [← h.memory_eq, hc])
  memory_eq := by
    rw [memoryAfter_append, ← h.memory_eq]
    show m'.memory = (c.perform m.memory).2
    rw [hc]

theorem move (h : Deposited memory cs m) (hcoh : Coherent code m) {d : List Deed} (hm : m.Move d m') :
    Deposited memory (cs ++ computations d) m' := by
  have hnil : cs ++ computations [] = cs := List.append_nil cs
  cases hcoh.change hm
  case compute done =>
    refine h.compute ?_
    simp only [Computation.perform, done.opcode, done.computes]
    exact done.accesses
  case commit =>
    rw [show cs ++ computations [.retired _] = cs from hnil]
    exact h.rest rfl
  all_goals
    rw [hnil]
    exact h.rest rfl

end Deposited

section Run

variable {config : Config} {code : List Instruction} {trace : List Deed} {s : Session} {m : Machine}

theorem Session.Reached.deposited (hc : config.Admitted) (h : Session.Reached config code trace s) :
    Deposited (Machine.initialMemory config) (computations trace) s.machine := by
  refine h.keeps hc (fun trace m => Deposited (Machine.initialMemory config) (computations trace) m)
    ?_ ?_ ?_
  · intro m hm
    obtain ⟨rob, -, rfl⟩ := Machine.initial_eq hm
    exact ⟨.nil _, (Machine.sameCore_settle _).memory⟩
  · intro trace m m' hs hd
    exact hd.rest hs.memory
  · intro trace m d m' hcoh hd hm
    rw [computations_append]
    exact hd.move hcoh hm

/-- A version whose result has been written has computed it. -/
theorem Refines.exists_computation {start : RegisterFile} (h : Refines start code trace m)
    (hcoh : Coherent code m) {id : InstanceId} {v : Instance} (hv : m.fetch.get? id = some v)
    (hs : v.stage = .written ∨ v.stage = .committed) : ∃ c ∈ computations trace, c.id = id := by
  have hns : v.stage ≠ .squashed := by rcases hs with hs | hs <;> simp [hs]
  have hcur := hcoh.order.orderly.current_of_get? hv hns
  have hid : m.fetch.idAt id.position = some id := by
    rw [Fetch.idAt, hcur, Option.map_some, (hcoh.order.orderly.id_of_get? hv).1]
  obtain ⟨hcommitted, hflight, hwaiting⟩ := hcoh.stage_eq hcur
  by_cases hlt : id.position < m.commits.toList.length
  · obtain ⟨es, -, hresults, hshown⟩ := h.replayed
    have hes : id.position < es.length := by
      rwa [← List.length_map (f := Evaluation.result), hresults, h.length_eq]
    obtain ⟨c, hc, hcid, -⟩ := hshown id.position _ _ (hcoh.order.orderly.instr_current hcur)
      (List.getElem?_eq_getElem hes)
    have hcommits := congrArg (fun ids => ids[id.position]?) hcoh.order.commits_eq
    simp only [List.getElem?_map, hcid, Option.map_some, List.getElem?_range hlt, hid] at hcommits
    exact ⟨c, hc, Option.some.inj (Option.some.inj hcommits)⟩
  · have hpc : id.position < m.fetch.pc := by
      by_contra hpc
      rcases hs with hs | hs <;> simp [hwaiting (by omega)] at hs
    obtain ⟨t, ht, hl, ho⟩ := hcoh.order.exists_live (by omega) hpc
    rw [hid] at ho
    have hready : t.ready = true := by
      have hst := hcoh.order.inFlight t ht hl id v ho hv
      by_contra hr
      rw [if_neg hr] at hst
      rcases hst with hst | hst <;> rcases hs with hs | hs <;> simp [hst] at hs
    obtain ⟨k, hk⟩ := List.mem_iff_getElem?.1 ht
    obtain ⟨c, hc, hco, -⟩ := h.recorded.written k t hk hl hready
    exact ⟨c, hc, Option.some.inj (hco.symm.trans ho)⟩

end Run

/-- Its version has been squashed. -/
def Fetch.isSquashed (f : Fetch) (id : InstanceId) : Bool := (f.get? id).any (·.stage == .squashed)

theorem Stage.isComputed_iff {stage : Stage} : stage.isComputed = true ↔
    stage = .written ∨ stage = .committed ∨ stage = .squashed := by
  cases stage <;> simp [isComputed]

/-- Memory holds what every computation so far has stored, in the order in which they wrote: each version that is
written or committed has computed, once, and the others that have are squashed. So long as none of the squashed
has stored anything, memory is what the stores of the written and the committed versions have made of it. -/
theorem memory_after_computations {config : Config} {code : List Instruction} {trace : List Deed}
    {s : Session} (hc : config.Admitted) (h : Session.Reached config code trace s) :
    let m := s.machine
    let cs := computations trace
    let memory := Machine.initialMemory config
    m.memory = memoryAfter memory cs ∧
    (∀ pre c post a, cs = pre ++ c :: post → c.loadsFrom a = true →
      c.result = ((latestStore pre a).map Computation.data).getD (memory.load a)) ∧
    (cs.map Computation.id).Nodup ∧
    (∀ c ∈ cs, ∃ v, m.fetch.get? c.id = some v ∧
      (v.stage = .written ∨ v.stage = .committed ∨ v.stage = .squashed)) ∧
    (∀ id v, m.fetch.get? id = some v → v.stage = .written ∨ v.stage = .committed →
      ∃ c ∈ cs, c.id = id) ∧
    ((∀ c ∈ cs, c.isStore = true → m.fetch.isSquashed c.id = false) →
      m.memory = memoryAfter memory (cs.filter fun c => !m.fetch.isSquashed c.id)) := by
  intro m cs memory
  have hcoh : Coherent code m := h.coherent hc
  have hr : Refines (Machine.initialRegisters config) code trace m := h.refines hc
  have hd : Deposited memory cs m := h.deposited hc
  refine ⟨hd.memory_eq, fun pre c post a hsplit ha => hd.truthful.load_eq hsplit ha, hr.recorded.nodup,
    fun c hcs => ?_, fun id v hv hs => hr.exists_computation hcoh hv hs, fun hnone => ?_⟩
  · obtain ⟨v, hv, hcomputed⟩ := hr.recorded.computed c hcs
    exact ⟨v, hv, Stage.isComputed_iff.1 hcomputed⟩
  · rw [memoryAfter_filter fun c hcs hstore => by simp [hnone c hcs hstore]]
    exact hd.memory_eq

/-- The branch waits for a product while an addition behind it writes; the load and the store behind that are squashed
before they write. In the end two stores have committed. The load has read what the first has stored, and the word of
the second stands in memory. -/
theorem memory_after_computations_branch : ∃ (config : Config) (code : List Instruction)
    (trace : List Deed) (s : Session), config.Admitted ∧ Session.Reached config code trace s ∧
      s.isComplete = true ∧ s.machine.counters.squashed = 3 ∧ (computations trace).length = 7 ∧
      (computations trace).countP (fun c => s.machine.fetch.isSquashed c.id) = 1 ∧
      (computations trace).countP Computation.isStore = 2 ∧
      (∃ pre c post, computations trace = pre ++ c :: post ∧ c.loadsFrom 8 = true ∧
        (latestStore pre 8).map Computation.data = some 5.0 ∧ c.result = 5.0) ∧
      s.machine.memory = memoryAfter (Machine.initialMemory config)
        ((computations trace).filter fun c => !s.machine.fetch.isSquashed c.id) ∧
      s.machine.memory.load 8 = 3.0 := by
  let first : Instruction := ⟨.store, none, ⟨5⟩, some ⟨0⟩, 8, []⟩
  let mul : Instruction := ⟨.mul, some ⟨1⟩, ⟨2⟩, some ⟨3⟩, 0, []⟩
  let branch : Instruction := ⟨.beq, none, ⟨1⟩, some ⟨1⟩, 0, []⟩
  let add : Instruction := ⟨.addi, some ⟨6⟩, ⟨0⟩, none, 3, []⟩
  let load : Instruction := ⟨.load, some ⟨7⟩, ⟨0⟩, none, 8, []⟩
  let second : Instruction := ⟨.store, none, ⟨6⟩, some ⟨0⟩, 8, []⟩
  let config : Config := { Config.standard with memorySize := 0 }
  have hadmitted : config.Admitted := ⟨by decide, by decide, by decide⟩
  have hrun : ∃ r ∈ Session.tracedRun config [first, mul, branch, add, load, second] 17,
      r.2.isComplete = true ∧ r.2.machine.counters.squashed = 3 ∧ (computations r.1).length = 7 ∧
      (computations r.1).countP (fun c => r.2.machine.fetch.isSquashed c.id) = 1 ∧
      (computations r.1).countP Computation.isStore = 2 ∧
      (∃ c ∈ (computations r.1)[5]?, c.loadsFrom 8 = true ∧
        (latestStore ((computations r.1).take 5) 8).map Computation.data = some 5.0) ∧
      (∀ c ∈ computations r.1, c.isStore = true → r.2.machine.fetch.isSquashed c.id = false) ∧
      r.2.machine.memory.load 8 = 3.0 := by
    decide +kernel
  obtain ⟨⟨trace, s⟩, hr, hcomplete, hsquashed, hlength, hcount, hstores, ⟨c, hc, hloads, hlatest⟩, hnone, hword⟩ :=
    hrun
  have hreached := Session.Reached.of_tracedRun hr
  obtain ⟨-, hread, -, -, -, hmemory⟩ := memory_after_computations hadmitted hreached
  have hsplit : computations trace = (computations trace).take 5 ++ c :: (computations trace).drop 6 := by
    obtain ⟨hlt, rfl⟩ := List.getElem?_eq_some_iff.1 hc
    rw [List.cons_getElem_drop_succ, List.take_append_drop]
  have hresult := hread _ c _ 8 hsplit hloads
  rw [hlatest] at hresult
  exact ⟨config, _, trace, s, hadmitted, hreached, hcomplete, hsquashed, hlength, hcount, hstores,
    ⟨_, c, _, hsplit, hloads, hlatest, hresult⟩, hmemory hnone, hword⟩

/-- The store behind a branch that waits for three products writes one cycle before the branch is taken. It is
squashed, its word stays, and the load before it, which is issued again, reads that word. -/
theorem squashed_store_persists : ∃ (config : Config) (code : List Instruction) (trace trace' : List Deed)
    (s s' : Session), config.Admitted ∧ Session.Reached config code trace s ∧
      s.machine.memory.load 8 = 5.0 ∧
      (memoryAfter (Machine.initialMemory config)
        ((computations trace).filter fun c => !s.machine.fetch.isSquashed c.id)).load 8 = 0.0 ∧
      Session.Reached config code trace' s' ∧ s'.isComplete = true ∧ s'.machine.registers.read ⟨6⟩ = 5.0 := by
  let mul : Instruction := ⟨.mul, some ⟨1⟩, ⟨2⟩, some ⟨3⟩, 0, []⟩
  let again : Instruction := ⟨.mul, some ⟨1⟩, ⟨1⟩, some ⟨3⟩, 0, []⟩
  let branch : Instruction := ⟨.beq, none, ⟨1⟩, some ⟨1⟩, 0, []⟩
  let load : Instruction := ⟨.load, some ⟨6⟩, ⟨0⟩, none, 8, []⟩
  let store : Instruction := ⟨.store, none, ⟨5⟩, some ⟨0⟩, 8, []⟩
  let config : Config := { Config.standard with memorySize := 0, mulStations := 3 }
  let code := [mul, again, again, branch, load, store]
  have hadmitted : config.Admitted := ⟨by decide, by decide, by decide⟩
  have hstored : ∃ r ∈ Session.tracedRun config code 13, r.2.machine.memory.load 8 = 5.0 ∧
      (memoryAfter (Machine.initialMemory config)
        ((computations r.1).filter fun c => !r.2.machine.fetch.isSquashed c.id)).load 8 = 0.0 := by
    decide +kernel
  have hloaded : ∃ r ∈ Session.tracedRun config code 21, r.2.isComplete = true ∧
      r.2.machine.registers.read ⟨6⟩ = 5.0 := by
    decide +kernel
  obtain ⟨⟨trace, s⟩, hr, hword, hclaimed⟩ := hstored
  obtain ⟨⟨trace', s'⟩, hr', hcomplete, hread⟩ := hloaded
  exact ⟨config, code, trace, trace', s, s', hadmitted, .of_tracedRun hr, hword, hclaimed,
    .of_tracedRun hr', hcomplete, hread⟩

end OutOfOrder
