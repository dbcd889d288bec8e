import Mathlib.Data.List.NodupEquivFin
import Mathlib.Data.List.Perm.Basic
import OutOfOrder.Proofs.Accesses
import OutOfOrder.Proofs.Units

/-!
Memory in a run without branches. Loads and stores take effect in the order in which their stations write,
whatever their order in the program. Memory is that of a run in program order as long as no two that conflict
pass each other, and with a single station for them none ever do.
-/

set_option autoImplicit false

namespace OutOfOrder

/-- At most one station serves loads and stores. -/
def Sole (units : List FunctionalUnit) : Prop :=
  ∀ i j : Nat, units[i]? = some .loadStore → units[j]? = some .loadStore → i = j

theorem sole_of_count {counts : FunctionalUnit → Nat} (h : counts .loadStore = 1) :
    Sole (StationTable.ofCounts counts).units := by
  have hcount := (StationTable.count_units_ofCounts counts .loadStore).trans h
  have hlt : ∀ i j : Nat, i < j → (StationTable.ofCounts counts).units[i]? = some .loadStore →
      (StationTable.ofCounts counts).units[j]? = some .loadStore → False := by
    intro i j hij hi hj
    obtain ⟨hil, hi⟩ := List.getElem?_eq_some_iff.1 hi
    obtain ⟨hjl, hj⟩ := List.getElem?_eq_some_iff.1 hj
    have hd := List.duplicate_iff_exists_distinct_get.2 ⟨⟨i, hil⟩, ⟨j, hjl⟩, hij, hi.symm, hj.symm⟩
    rw [List.duplicate_iff_two_le_count, hcount] at hd
    omega
  intro i j hi hj
  rcases Nat.lt_trichotomy i j with hij | hij | hij
  · exact (hlt i j hij hi hj).elim
  · exact hij
  · exact (hlt j i hij hj hi).elim

/-! ### Moves without branches -/

section Branchless

variable {code : List Instruction} {m m' : Machine}

/-- What no move takes back: versions stay current, and a slot waits since it was issued. -/
structure Advances (m m' : Machine) : Prop where
  idAt : m'.fetch.idAt = m.fetch.idAt
  pc_le : m.fetch.pc ≤ m'.fetch.pc
  units : m'.stations.units = m.stations.units
  pending : ∀ s' ∈ m'.rob.window, s'.isPending = true →
    (∃ s ∈ m.rob.window, s.isPending = true ∧ s'.occupant = s.occupant ∧ s'.instr = s.instr) ∨
      ∃ id, s'.occupant = some id ∧ m.fetch.pc ≤ id.position

namespace Advances

theorem of_subset (hidAt : m'.fetch.idAt = m.fetch.idAt) (hpc : m'.fetch.pc = m.fetch.pc)
    (hunits : m'.stations.units = m.stations.units) (hw : m'.rob.window ⊆ m.rob.window) :
    Advances m m' where
  idAt := hidAt
  pc_le := Nat.le_of_eq hpc.symm
  units := hunits
  pending := fun s hs hp => .inl ⟨s, hw hs, hp, rfl, rfl⟩

theorem of_map {u : Slot → Slot} (hidAt : m'.fetch.idAt = m.fetch.idAt) (hpc : m'.fetch.pc = m.fetch.pc)
    (hunits : m'.stations.units = m.stations.units) (hw : m'.rob.window = m.rob.window.map u)
    (hu : ∀ s ∈ m.rob.window, s.SameRole (u s))
    (hp : ∀ s ∈ m.rob.window, (u s).isPending = true → s.isPending = true) : Advances m m' where
  idAt := hidAt
  pc_le := Nat.le_of_eq hpc.symm
  units := hunits
  pending := by
    intro s' hs' hp'
    rw [hw] at hs'
    obtain ⟨s, hs, rfl⟩ := List.mem_map.1 hs'
    exact .inl ⟨s, hs, hp s hs hp', (hu s hs).occupant, (hu s hs).instr⟩

end Advances

theorem Opcode.eq_beq_of_isBranch {op : Opcode} (h : op.isBranch = true) : op = .beq := by
  cases op <;> simp_all [isBranch]

theorem Coherent.advances (h : Coherent code m) (hno : ∀ i ∈ code, i.opcode ≠ .beq) {d : List Deed}
    (hm : m.Move d m') : Advances m m' := by
  have hunits := h.units_of_move hm
  cases h.change hm
  case compute done =>
    exact .of_map (h.order.idAt_promote done.current) rfl hunits done.window done.arrives.sameRole
      fun t ht htp => (done.arrives.isPending ht htp).1
  case squash done =>
    obtain ⟨id, i, -, hi, hinstr, -⟩ := h.order.holds _ done.slot
    obtain rfl := Option.some.inj (done.holds.symm.trans hinstr)
    exact absurd (Opcode.eq_beq_of_isBranch done.branch) (hno _ (List.mem_of_getElem? hi))
  case start done =>
    exact .of_map rfl rfl hunits done.window done.roles fun t ht htp =>
      ((done.roles t ht).isPending (done.same t ht).1).symm.trans htp
  case countdown => exact .of_subset rfl rfl hunits (List.Subset.refl _)
  case complete done =>
    exact .of_map (h.order.idAt_promote done.current) rfl hunits done.window done.roles
      fun t ht htp => ((done.roles t ht).isPending (done.same t ht).1).symm.trans htp
  case issue done =>
    refine ⟨h.order.idAt_promote done.current, Nat.le_succ _, hunits, ?_⟩
    dsimp only
    rw [done.window]
    intro s hs hp
    rcases List.mem_append.1 hs with hs | hs
    · exact .inl ⟨s, hs, hp, rfl, rfl⟩
    · rw [List.mem_singleton.1 hs]
      exact .inr ⟨_, rfl, Nat.le_of_eq done.position.symm⟩
  case commit done =>
    refine .of_subset (h.order.idAt_promote done.current) rfl hunits ?_
    dsimp only
    rw [done.window, done.head]
    exact List.subset_cons_self _ _
  case discard done =>
    refine .of_subset rfl rfl hunits ?_
    dsimp only
    rw [done.window, done.head]
    exact List.subset_cons_self _ _
  case wait | restart | stall => exact .of_subset rfl rfl hunits (List.Subset.refl _)

/-- The slot that a computation is for waits no longer. -/
theorem Coherent.slot_of_computed (h : Coherent code m) {c : Computation}
    (hm : m.Move [.computed c] m') :
    (∃ s i, s ∈ m.rob.window ∧ s.isPending = true ∧ s.occupant = some c.id ∧ s.instr = some i ∧
      c.station.opcode = some i.opcode) ∧
    ∀ s ∈ m'.rob.window, s.isPending = true → s.occupant ≠ some c.id := by
  cases h.change hm
  case compute done =>
    obtain ⟨s', instr, hk, hi, hserves⟩ := done.fed
    obtain rfl := Option.some.inj (done.slot.symm.trans hk)
    refine ⟨⟨_, instr, done.mem, done.pending, done.occupant, hi, hserves.opcode⟩, ?_⟩
    dsimp only
    rw [done.window]
    intro t' ht' htp hto
    obtain ⟨t, ht, rfl⟩ := List.mem_map.1 ht'
    rw [(done.arrives.sameRole t ht).occupant] at hto
    have hts := h.slot_of_occupant ht done.mem (hto.trans done.occupant.symm)
    exact (done.arrives.isPending ht htp).2 (hts ▸ done.named)

/-- The computations of a run against its memory. -/
structure Performed (memory : Memory) (cs : List Computation) (m : Machine) : Prop where
  truthful : Truthful memory cs
  memory_eq : m.memory = memoryAfter memory cs
  current : ∀ c ∈ cs, m.fetch.idAt c.id.position = some c.id

namespace Performed

variable {memory : Memory} {cs : List Computation}

theorem rest (h : Performed memory cs m) (ha : Advances m m') (hmemory : m'.memory = m.memory) :
    Performed memory cs m' where
  truthful := h.truthful
  memory_eq := by rw [hmemory, h.memory_eq]
  current := by rw [ha.idAt]; exact h.current

theorem compute (h : Performed memory cs m) (hcoh : Coherent code m) (ha : Advances m m')
    {c : Computation} (hm : m.Move [.computed c] m')
    (hc : c.perform m.memory = (c.result, m'.memory)) : Performed memory (cs ++ [c]) m' where
  truthful := h.truthful.concat (by rw [← h.memory_eq, hc])
  memory_eq := by
    rw [memoryAfter_append, ← h.memory_eq]
    show m'.memory = (c.perform m.memory).2
    rw [hc]
  current := by
    rw [ha.idAt]
    intro d hd
    rcases List.mem_append.1 hd with hd | hd
    · exact h.current d hd
    · rw [List.mem_singleton.1 hd]
      obtain ⟨⟨s, i, hs, hp, ho, -⟩, -⟩ := hcoh.slot_of_computed hm
      obtain ⟨v, ho', hv⟩ := hcoh.exists_current hs (Slot.isPending_eq_true.1 hp).1
      rw [Option.some.inj (ho.symm.trans ho'), Fetch.idAt, hv]
      rfl

theorem move (h : Performed memory cs m) (hcoh : Coherent code m) (hno : ∀ i ∈ code, i.opcode ≠ .beq)
    {d : List Deed} (hm : m.Move d m') : Performed memory (cs ++ computations d) m' := by
  have ha := hcoh.advances hno hm
  have hnil : cs ++ computations [] = cs := List.append_nil cs
  cases hcoh.change hm
  case compute done =>
    refine h.compute hcoh ha hm ?_
    simp only [Computation.perform, done.opcode, done.computes]
    exact done.accesses
  case commit =>
    rw [show cs ++ computations [.retired _] = cs from hnil]
    exact h.rest ha rfl
  all_goals
    rw [hnil]
    exact h.rest ha rfl

end Performed

/-! ### A single station for loads and stores -/

theorem Computation.isMemory_of_address {c : Computation} {i : Instruction}
    (h : c.station.opcode = some i.opcode) (ha : c.address.isSome = true) : i.opcode.isMemory = true := by
  unfold address at ha
  rw [h] at ha
  cases ho : i.opcode <;> simp_all [Opcode.isMemory]

/-- Of the slots that wait for memory, the single station serves one. -/
theorem Coherent.eq_of_memory (h : Coherent code m) (hsole : Sole m.stations.units) {s t : Slot}
    {i j : Instruction} (hs : s ∈ m.rob.window) (ht : t ∈ m.rob.window) (hsp : s.isPending = true)
    (htp : t.isPending = true) (hsi : s.instr = some i) (htj : t.instr = some j)
    (hi : i.opcode.isMemory = true) (hj : j.opcode.isMemory = true) : s = t := by
  have hstation : ∀ (r : Slot) (instr : Instruction), r ∈ m.rob.window → r.isPending = true →
      r.instr = some instr → instr.opcode.isMemory = true → ∃ (n : Nat) (st : Station),
        m.stations.stations[n]? = some st ∧ st.dest = r.tag ∧
          m.stations.units[n]? = some .loadStore := by
    intro r instr hr hp hri hmem
    obtain ⟨n, st, hn, hb, hd⟩ := h.staffed.manned r hr hp
    obtain ⟨k, hk⟩ := List.mem_iff_getElem?.1 hr
    obtain ⟨-, r', instr', hk', hi', hserves⟩ := h.pending_of_busy hn hb hk hd.symm
    obtain rfl := Option.some.inj (hk.symm.trans hk')
    obtain rfl := Option.some.inj (hri.symm.trans hi')
    refine ⟨n, st, hn, hd, ?_⟩
    rw [StationTable.getElem?_units, hn, Option.map_some, hserves.unit]
    cases ho : instr.opcode <;> simp_all [Opcode.isMemory, Opcode.unit]
  obtain ⟨a, st, ha, hsd, hsu⟩ := hstation s i hs hsp hsi hi
  obtain ⟨b, st', hb, htd, htu⟩ := hstation t j ht htp htj hj
  obtain rfl := hsole a b hsu htu
  obtain rfl := Option.some.inj (ha.symm.trans hb)
  exact h.slot_of_tag hs ht (hsd.symm.trans htd)

/-- The memory operations that have computed, all of them before the one that waits. -/
structure Serial (cs : List Computation) (m : Machine) : Prop where
  sole : Sole m.stations.units
  issued : ∀ c ∈ cs, c.id.position < m.fetch.pc
  ahead : ∀ s ∈ m.rob.window, s.isPending = true → ∀ i id, s.instr = some i → i.opcode.isMemory = true →
    s.occupant = some id → ∀ c ∈ cs, c.address.isSome = true → c.id.position < id.position
  sorted : cs.Pairwise fun c d => c.address.isSome = true → d.address.isSome = true →
    c.id.position < d.id.position

namespace Serial

variable {cs : List Computation}

theorem ordered (h : Serial cs m) : Ordered cs := by
  refine h.sorted.imp fun {c d} hcd hconflict => ?_
  simp only [Computation.conflicts, Bool.and_eq_true, beq_iff_eq] at hconflict
  exact hcd hconflict.1.1 (hconflict.1.2 ▸ hconflict.1.1)

theorem rest (h : Serial cs m) (ha : Advances m m') : Serial cs m' where
  sole := by rw [ha.units]; exact h.sole
  issued := fun c hc => Nat.lt_of_lt_of_le (h.issued c hc) ha.pc_le
  ahead := by
    intro s' hs' hp i id hi hmem ho c hc hca
    rcases ha.pending s' hs' hp with ⟨s, hs, hsp, hso, hsi⟩ | ⟨id', ho', hpc⟩
    · exact h.ahead s hs hsp i id (hsi ▸ hi) hmem (hso ▸ ho) c hc hca
    · obtain rfl := Option.some.inj (ho.symm.trans ho')
      exact Nat.lt_of_lt_of_le (h.issued c hc) hpc
  sorted := h.sorted

theorem compute (h : Serial cs m) (hcoh : Coherent code m) (ha : Advances m m') {c : Computation}
    (hm : m.Move [.computed c] m') : Serial (cs ++ [c]) m' := by
  obtain ⟨⟨s, i, hs, hp, ho, hi, hop⟩, hafter⟩ := hcoh.slot_of_computed hm
  have hr := h.rest ha
  have hpos : c.id.position < m.fetch.pc := by
    obtain ⟨v, ho', -, -, hlt⟩ := hcoh.order.current_of_live hs (Slot.isPending_eq_true.1 hp).1
    rw [Option.some.inj (ho.symm.trans ho')]
    exact hlt
  refine ⟨hr.sole, fun d hd => ?_, fun s' hs' hp' j id hj hmem ho' d hd hda => ?_, ?_⟩
  · rcases List.mem_append.1 hd with hd | hd
    · exact hr.issued d hd
    · rw [List.mem_singleton.1 hd]
      exact Nat.lt_of_lt_of_le hpos ha.pc_le
  · rcases List.mem_append.1 hd with hd | hd
    · exact hr.ahead s' hs' hp' j id hj hmem ho' d hd hda
    · rw [List.mem_singleton.1 hd] at hda ⊢
      rcases ha.pending s' hs' hp' with ⟨t, ht, htp, hto, hti⟩ | ⟨id', ho'', hpc⟩
      · have heq := hcoh.eq_of_memory h.sole hs ht hp htp hi (hti ▸ hj)
          (Computation.isMemory_of_address hop hda) hmem
        exact absurd (by rw [hto, ← heq, ho]) (hafter s' hs' hp')
      · obtain rfl := Option.some.inj (ho'.symm.trans ho'')
        exact Nat.lt_of_lt_of_le hpos hpc
  · rw [List.pairwise_append]
    refine ⟨hr.sorted, by simp, fun d hd e he hda hea => ?_⟩
    rw [List.mem_singleton.1 he] at hea ⊢
    exact h.ahead s hs hp i c.id hi (Computation.isMemory_of_address hop hea) ho d hd hda

theorem move (h : Serial cs m) (hcoh : Coherent code m) (hno : ∀ i ∈ code, i.opcode ≠ .beq)
    {d : List Deed} (hm : m.Move d m') : Serial (cs ++ computations d) m' := by
  have ha := hcoh.advances hno hm
  have hnil : cs ++ computations [] = cs := List.append_nil cs
  cases hcoh.change hm
  case compute => exact h.compute hcoh ha hm
  case commit =>
    rw [show cs ++ computations [.retired _] = cs from hnil]
    exact h.rest ha
  all_goals
    rw [hnil]
    exact h.rest ha

end Serial

end Branchless

/-! ### Complete runs -/

section Complete

variable {config : Config} {code : List Instruction} {trace : List Deed} {s : Session} {m : Machine}

theorem Session.Reached.performed (hc : config.Admitted) (h : Session.Reached config code trace s)
    (hno : ∀ i ∈ code, i.opcode ≠ .beq) :
    Performed (Machine.initialMemory config) (computations trace) s.machine := by
  refine h.keeps hc (fun trace m => Performed (Machine.initialMemory config) (computations trace) m)
    ?_ ?_ ?_
  · intro m hm
    obtain ⟨rob, -, rfl⟩ := Machine.initial_eq hm
    exact ⟨.nil _, (Machine.sameCore_settle _).memory, by simp [computations]⟩
  · intro trace m m' hs hp
    exact ⟨hp.truthful, by rw [hs.memory, hp.memory_eq], by rw [hs.fetch]; exact hp.current⟩
  · intro trace m d m' hcoh hp hm
    rw [computations_append]
    exact hp.move hcoh hno hm

theorem Session.Reached.serial (hc : config.Admitted) (h : Session.Reached config code trace s)
    (hno : ∀ i ∈ code, i.opcode ≠ .beq) (hsole : config.stations .loadStore = 1) :
    Serial (computations trace) s.machine := by
  refine h.keeps hc (fun trace m => Serial (computations trace) m) ?_ ?_ ?_
  · intro m hm
    obtain ⟨rob, -, rfl⟩ := Machine.initial_eq hm
    refine ⟨?_, by simp [computations], by simp [computations], .nil⟩
    rw [(Machine.sameCore_settle _).stations]
    exact sole_of_count hsole
  · intro trace m m' hs hserial
    exact ⟨by rw [hs.stations]; exact hserial.sole, by rw [hs.fetch]; exact hserial.issued,
      by rw [hs.rob]; exact hserial.ahead, hserial.sorted⟩
  · intro trace m d m' hcoh hserial hm
    rw [computations_append]
    exact hserial.move hcoh hno hm

theorem Coherent.nodup_commits (h : Coherent code m) : m.commits.toList.Nodup := by
  have hn : (m.commits.toList.map InstanceId.position).Nodup := by
    rw [show m.commits.toList.map InstanceId.position = _ from h.committedPositions_eq]
    exact List.nodup_range
  exact hn.of_map

/-- Whatever has computed has committed, if nothing is left to do and nothing was squashed. -/
theorem Performed.perm_commits {start : RegisterFile} {memory : Memory}
    (h : Performed memory (computations trace) m) (hcoh : Coherent code m)
    (hr : Refines start code trace m) (hdone : m.commits.toList.length = code.length) :
    ((computations trace).map Computation.id).Perm m.commits.toList := by
  obtain ⟨es, -, hresults, hshown⟩ := hr.replayed
  have hlength : es.length = code.length := by
    rw [← hdone, ← hr.length_eq, ← hresults, List.length_map]
  rw [List.perm_ext_iff_of_nodup hr.recorded.nodup hcoh.nodup_commits]
  intro id
  constructor
  · intro hid
    obtain ⟨c, hc, rfl⟩ := List.mem_map.1 hid
    have hcurrent := h.current c hc
    have hlt : c.id.position < m.commits.toList.length := by
      obtain ⟨v, hv, -⟩ := Option.map_eq_some_iff.1 hcurrent
      rw [hdone]
      exact hcoh.order.orderly.lt_length hv
    have hmem : some c.id ∈ m.commits.toList.map some := by
      rw [hcoh.order.commits_eq, ← hcurrent]
      exact List.mem_map_of_mem (List.mem_range.2 hlt)
    obtain ⟨id, hid, he⟩ := List.mem_map.1 hmem
    rwa [← Option.some.inj he]
  · intro hid
    obtain ⟨p, hp⟩ := List.mem_iff_getElem?.1 hid
    have hlt : p < code.length := hdone ▸ (List.getElem?_eq_some_iff.1 hp).1
    obtain ⟨c, hc, hcid, -⟩ := hshown p _ _ (List.getElem?_eq_getElem hlt)
      (List.getElem?_eq_getElem (hlength ▸ hlt))
    rw [hp] at hcid
    rw [Option.some.inj hcid]
    exact List.mem_map_of_mem hc

theorem exists_perm_of_ids {cs : List Computation} {ids : List InstanceId}
    (h : (cs.map Computation.id).Perm ids) : ∃ ds, cs.Perm ds ∧ ds.map Computation.id = ids := by
  have hcomp : Relation.Comp (fun ids cs => ids = cs.map Computation.id) List.Perm ids cs := by
    rw [List.eq_map_comp_perm]
    exact h.symm
  obtain ⟨ds, hds, hp⟩ := hcomp
  exact ⟨ds, hp.symm, hds.symm⟩

theorem Coherent.ordered_of_commits (h : Coherent code m) {ds : List Computation}
    (hds : ds.map Computation.id = m.commits.toList) : Ordered ds := by
  have hsorted : (ds.map Computation.id).Pairwise fun a b => a.position < b.position := by
    rw [hds, ← List.pairwise_map (f := InstanceId.position) (R := (· < ·)),
      show m.commits.toList.map InstanceId.position = _ from h.committedPositions_eq]
    exact List.pairwise_lt_range
  rw [List.pairwise_map] at hsorted
  exact hsorted.imp fun {c d} hcd (_ : c.conflicts d = true) => hcd

/-- What a load finds in memory. -/
theorem Truthful.load_eq {memory : Memory} {cs : List Computation} (h : Truthful memory cs)
    {pre post : List Computation} {c : Computation} {a : Address} (hc : cs = pre ++ c :: post)
    (ha : c.loadsFrom a = true) :
    c.result = ((latestStore pre a).map Computation.data).getD (memory.load a) := by
  rw [← h pre c post hc, Computation.perform_of_load ha, words_memoryAfter]
  cases latestStore pre a <;> simp [Memory.load, Std.TreeMap.getD_eq_getD_getElem?]

theorem Refines.result_eq {start : RegisterFile} (h : Refines start code trace m)
    (hcoh : Coherent code m) {c : Computation} (hc : c ∈ computations trace)
    (hid : c.id ∈ m.commits.toList) : (retirements trace)[c.id.position]? = some c.result := by
  obtain ⟨es, -, hresults, hshown⟩ := h.replayed
  obtain ⟨p, hp⟩ := List.mem_iff_getElem?.1 hid
  have hlt : p < m.commits.toList.length := (List.getElem?_eq_some_iff.1 hp).1
  have hcode : p < code.length := by
    have hle := hcoh.order.commits_le
    have hpc := hcoh.order.pc_le
    omega
  have hes : p < es.length := by
    rwa [← List.length_map (f := Evaluation.result), hresults, h.length_eq]
  obtain ⟨x, hx, hxid, hshows⟩ := hshown p _ _ (List.getElem?_eq_getElem hcode)
    (List.getElem?_eq_getElem hes)
  rw [hp] at hxid
  obtain rfl := List.inj_on_of_nodup_map h.recorded.nodup hc hx (Option.some.inj hxid)
  rw [hcoh.position_of_commit hp, ← hresults, List.getElem?_map, List.getElem?_eq_getElem hes,
    Option.map_some, hshows.result]

/-- A run in which no two conflicting accesses pass each other is one in program order. -/
theorem Performed.inOrder {start : RegisterFile} {memory : Memory}
    (h : Performed memory (computations trace) m) (hcoh : Coherent code m)
    (hr : Refines start code trace m) (hdone : m.commits.toList.length = code.length)
    (hordered : Ordered (computations trace)) :
    ∃ last, runInOrder start memory code = .ok (retirements trace, m.registers, last) ∧
      m.memory.toList = last.toList := by
  obtain ⟨ds, hp, hids⟩ := exists_perm_of_ids (h.perm_commits hcoh hr hdone)
  have hds := hcoh.ordered_of_commits hids
  obtain ⟨es, hreplay, hresults, hshown⟩ := hr.replayed
  have htruthful := hordered.truthful hds hp hr.recorded.nodup h.truthful
  have hlength : ds.length = code.length := by
    rw [← hdone, ← hids, List.length_map]
  have hrun := runInOrder_of_replay hreplay (hr.length_eq.trans hdone) hlength ?_ htruthful
  · refine ⟨memoryAfter memory ds, by rw [hrun, hresults], ?_⟩
    rw [h.memory_eq]
    exact hordered.toList_memoryAfter hds hp hr.recorded.nodup.of_map memory
  · intro p c i e hpc hi he
    obtain ⟨x, hx, hxid, hshows⟩ := hshown p i e hi he
    rw [← hids, List.getElem?_map, hpc, Option.map_some, Option.some.injEq] at hxid
    have hc : c ∈ computations trace := hp.mem_iff.2 (List.mem_of_getElem? hpc)
    obtain rfl := List.inj_on_of_nodup_map hr.recorded.nodup hc hx hxid
    exact hshows

end Complete

/-- Loads and stores take effect one by one as their stations write. A load commits what the latest store
before it in this order stored to its address, and memory ends as the stores leave it. The registers, the
results and the memory are those of a run in program order unless accesses that conflict pass each other, and
with a single station for loads and stores they do not. -/
theorem memory_in_write_order {config : Config} {code : List Instruction} {trace : List Deed}
    {s : Session} (hc : config.Admitted) (h : Session.Reached config code trace s)
    (hno : ∀ i ∈ code, i.opcode ≠ .beq) (hdone : s.isComplete = true) :
    let m := s.machine
    let cs := computations trace
    let memory := Machine.initialMemory config
    (cs.map Computation.id).Perm m.commits.toList ∧
    (∀ c ∈ cs, (retirements trace)[c.id.position]? = some c.result) ∧
    (∀ pre c post a, cs = pre ++ c :: post → c.loadsFrom a = true →
      c.result = ((latestStore pre a).map Computation.data).getD (memory.load a)) ∧
    m.memory = memoryAfter memory cs ∧
    (Ordered cs → ∃ last,
      runInOrder (Machine.initialRegisters config) memory code =
        .ok (retirements trace, m.registers, last) ∧ m.memory.toList = last.toList) ∧
    (config.stations .loadStore = 1 → Ordered cs) := by
  intro m cs memory
  have hcoh : Coherent code m := h.coherent hc
  have hr : Refines (Machine.initialRegisters config) code trace m := h.refines hc
  have hp : Performed memory cs m := h.performed hc hno
  have hlength : m.commits.toList.length = code.length := (h.finished hc).complete_iff.1 hdone
  have hperm := hp.perm_commits hcoh hr hlength
  refine ⟨hperm, fun c hcs => ?_, fun pre c post a hsplit ha => hp.truthful.load_eq hsplit ha,
    hp.memory_eq, hp.inOrder hcoh hr hlength, fun hsole => (h.serial hc hno hsole).ordered⟩
  exact hr.result_eq hcoh hcs (hperm.mem_iff.1 (List.mem_map_of_mem hcs))

/-- With one station the load waits for the store. -/
theorem memory_in_write_order_single_station : ∃ (config : Config) (code : List Instruction)
    (trace : List Deed) (s : Session), config.Admitted ∧ Session.Reached config code trace s ∧
      s.isComplete = true ∧ s.machine.registers.read ⟨6⟩ = 6.0 ∧ ∃ last,
        runInOrder (Machine.initialRegisters config) (Machine.initialMemory config) code =
          .ok (retirements trace, s.machine.registers, last) ∧ s.machine.memory.toList = last.toList := by
  let mul : Instruction := ⟨.mul, some ⟨1⟩, ⟨2⟩, some ⟨3⟩, 0, []⟩
  let store : Instruction := ⟨.store, none, ⟨1⟩, some ⟨0⟩, 8, []⟩
  let load : Instruction := ⟨.load, some ⟨6⟩, ⟨0⟩, none, 8, []⟩
  let config : Config := { Config.standard with memorySize := 0, loadStoreStations := 1 }
  have hadmitted : config.Admitted := ⟨by decide, by decide, by decide⟩
  have hno : ∀ i ∈ [mul, store, load], i.opcode ≠ .beq := by decide
  have hrun : ∃ r ∈ Session.tracedRun config [mul, store, load] 30, r.2.isComplete = true ∧
      r.2.machine.registers.read ⟨6⟩ = 6.0 := by
    decide +kernel
  obtain ⟨⟨trace, s⟩, hr, hcomplete, hread⟩ := hrun
  have hreached := Session.Reached.of_tracedRun hr
  obtain ⟨-, -, -, -, hinOrder, hsingle⟩ := memory_in_write_order hadmitted hreached hno hcomplete
  exact ⟨config, _, trace, s, hadmitted, hreached, hcomplete, hread, hinOrder (hsingle rfl)⟩

/-- With two stations a load passes a store to its address that waits for a product. -/
theorem load_passes_store : ∃ (config : Config) (code : List Instruction) (trace : List Deed)
    (s : Session) (results : List Word) (registers : RegisterFile) (last : Memory),
      config.Admitted ∧ (∀ unit, 1 ≤ config.stations unit) ∧ (∀ i ∈ code, i.opcode ≠ .beq) ∧
      Session.Reached config code trace s ∧ s.isComplete = true ∧
      runInOrder (Machine.initialRegisters config) (Machine.initialMemory config) code =
        .ok (results, registers, last) ∧
      s.machine.registers.read ⟨6⟩ = 0.0 ∧ registers.read ⟨6⟩ = 6.0 := by
  let mul : Instruction := ⟨.mul, some ⟨1⟩, ⟨2⟩, some ⟨3⟩, 0, []⟩
  let store : Instruction := ⟨.store, none, ⟨1⟩, some ⟨0⟩, 8, []⟩
  let load : Instruction := ⟨.load, some ⟨6⟩, ⟨0⟩, none, 8, []⟩
  let config : Config := { Config.standard with memorySize := 0 }
  have hadmitted : config.Admitted := ⟨by decide, by decide, by decide⟩
  have hunits : ∀ unit, 1 ≤ config.stations unit := by
    intro unit
    cases unit <;> decide
  have hno : ∀ i ∈ [mul, store, load], i.opcode ≠ .beq := by decide
  have hrun : ∃ r ∈ Session.tracedRun config [mul, store, load] 30, r.2.isComplete = true ∧
      r.2.machine.registers.read ⟨6⟩ = 0.0 := by
    decide +kernel
  have hinOrder : ∃ r ∈ (runInOrder (Machine.initialRegisters config) (Machine.initialMemory config)
      [mul, store, load]).toOption, r.2.1.read ⟨6⟩ = 6.0 := by
    decide +kernel
  obtain ⟨⟨trace, s⟩, hr, hcomplete, hread⟩ := hrun
  obtain ⟨⟨results, registers, last⟩, hi, hread'⟩ := hinOrder
  exact ⟨config, _, trace, s, results, registers, last, hadmitted, hunits, hno, .of_tracedRun hr,
    hcomplete, toOption_eq_some_iff.1 hi, hread, hread'⟩

end OutOfOrder
