import OutOfOrder.Proofs.Progress
import OutOfOrder.Proofs.Refinement

/-!
Arithmetic faults. No operand that an operation ever sees, speculative or not, differs from the one that it has
in the program's own order; so a division faults where the program itself divides by zero, and nowhere else.
-/

set_option autoImplicit false

namespace OutOfOrder

/-! ### What a program leaves undefined -/

/-- The values that the registers have in the program's own order. An operation without a result leaves its
destination without a value. -/
abbrev Known := Register → Option Word

namespace Instruction

/-- What comes of an instruction other than a load; nothing if a source has no value, or the operation no
result. -/
def outcome (i : Instruction) (known : Known) : Option Word := do
  let left ← known i.sources.1
  let right ← i.sources.2.elim (some 0.0) known
  let computed ← (i.opcode.apply left right i.imm).toOption
  return if i.opcode = .store then right else computed

/-- A division whose sources have values, and whose divisor is a zero of either sign. -/
def DividesByZero (i : Instruction) (known : Known) : Prop :=
  (∀ r ∈ i.reads, (known r).isSome = true) ∧
    ((i.opcode = .div ∧ ∃ q divisor, i.rt = some q ∧ known q = some divisor ∧ (divisor == 0.0) = true) ∨
      (i.opcode = .divi ∧ i.imm = 0))

end Instruction

def Known.next (known : Known) (i : Instruction) : Known := fun r =>
  if i.dest = some r then i.outcome known else known r

/-- What is known when the instructions up to a position have been evaluated once, in order. -/
def knownBefore (start : RegisterFile) (code : List Instruction) (p : Nat) : Known :=
  (code.take p).foldl Known.next fun r => some (start.read r)

theorem knownBefore_succ {start : RegisterFile} {code : List Instruction} {p : Nat} {i : Instruction}
    (hi : code[p]? = some i) :
    knownBefore start code (p + 1) = (knownBefore start code p).next i := by
  rw [knownBefore, List.take_add_one, hi, Option.toList_some, List.foldl_append]
  rfl

theorem Opcode.apply_eq_error_iff {op : Opcode} {left right : Word} {imm : Int64} {e : DivisionByZero} :
    op.apply left right imm = .error e ↔
      (op = .div ∧ (right == 0.0) = true) ∨ (op = .divi ∧ imm = 0) := by
  cases op <;> simp [apply]

namespace Instruction

variable {i : Instruction} {known : Known} {left right : Word}

theorem outcome_of_sources (hleft : known i.sources.1 = some left)
    (hright : i.sources.2.elim (some 0.0) known = some right) :
    i.outcome known = (i.opcode.apply left right i.imm).toOption.map fun computed =>
      if i.opcode = .store then right else computed := by
  rw [outcome, hleft, hright]
  show ((i.opcode.apply left right i.imm).toOption.bind fun computed =>
    some (if i.opcode = .store then right else computed)) = _
  exact Option.map_eq_bind.symm

theorem known_of_sources (hleft : known i.sources.1 = some left)
    (hright : i.sources.2.elim (some 0.0) known = some right) : ∀ r ∈ i.reads, (known r).isSome = true := by
  intro r hr
  rw [reads, List.mem_cons, Option.mem_toList] at hr
  rcases hr with rfl | hr
  · rw [hleft]
    rfl
  · rw [hr, Option.elim_some] at hright
    rw [hright]
    rfl

theorem sources_of_div (hop : i.opcode = .div) : i.sources = (i.rs, i.rt) := by
  simp [sources, hop, Opcode.usesImmediate]

/-- The operation fails on sources with values. -/
theorem dividesByZero_of_error (hrt : i.opcode = .div → i.rt.isSome = true)
    (hleft : known i.sources.1 = some left) (hright : i.sources.2.elim (some 0.0) known = some right)
    {e : DivisionByZero} (h : i.opcode.apply left right i.imm = .error e) : i.DividesByZero known := by
  refine ⟨known_of_sources hleft hright, ?_⟩
  rcases Opcode.apply_eq_error_iff.1 h with ⟨hop, hzero⟩ | himm
  · obtain ⟨q, hq⟩ := Option.isSome_iff_exists.1 (hrt hop)
    rw [sources_of_div hop, hq, Option.elim_some] at hright
    exact .inl ⟨hop, q, right, hq, hright, hzero⟩
  · exact .inr himm

/-- Whatever has an outcome does not divide by zero. -/
theorem not_dividesByZero_of_outcome (h : (i.outcome known).isSome = true) : ¬i.DividesByZero known := by
  rintro ⟨-, hzero⟩
  obtain ⟨value, hvalue⟩ := Option.isSome_iff_exists.1 h
  simp only [outcome, bind, Option.bind_eq_some_iff] at hvalue
  obtain ⟨left, -, right, hright, computed, hcomputed, -⟩ := hvalue
  rw [toOption_eq_some_iff] at hcomputed
  have herror : i.opcode.apply left right i.imm = .error .divisionByZero := by
    rw [Opcode.apply_eq_error_iff]
    refine hzero.imp_left ?_
    rintro ⟨hop, q, divisor, hq, hdivisor, hz⟩
    rw [sources_of_div hop, hq, Option.elim_some, hdivisor] at hright
    obtain rfl := Option.some.inj hright
    exact ⟨hop, hz⟩
  rw [herror] at hcomputed
  simp at hcomputed

end Instruction

/-! ### Operands are what they are in order -/

/-- The sources of a station that is ready, if what it was given by resolved operands is what is known. -/
theorem Serves.known {from? : Register → Operand} {i : Instruction} {st : Station} {known : Known}
    (h : Serves from? i st) (hready : st.isReady = true)
    (hknown : ∀ r value, from? r = .resolved value → known r = some value) :
    known i.sources.1 = some (Station.operandValue st.left) ∧
      i.sources.2.elim (some 0.0) known = some (Station.operandValue st.right) := by
  have hvalue : ∀ r, (from? r).isResolved = true → known r = some (Station.operandValue (some (from? r))) := by
    intro r hr
    cases hfrom : from? r with
    | resolved value => exact hknown r value hfrom
    | pending tag =>
      rw [hfrom] at hr
      simp [Operand.isResolved, Operand.value?] at hr
  simp only [Station.isReady, h.left, h.right, Option.any_some, Bool.and_eq_true] at hready
  obtain ⟨⟨-, hleft⟩, hright⟩ := hready
  rw [h.left, h.right]
  refine ⟨hvalue _ hleft, ?_⟩
  cases hsource : i.sources.2 with
  | none => rfl
  | some q =>
    rw [hsource, Option.map_some, Option.all_some] at hright
    exact hvalue q hright

/-- What a station computed from known sources is the outcome. -/
theorem Computation.Valid.outcome {c : Computation} (hv : c.Valid) {from? : Register → Operand}
    {i : Instruction} (hserves : Serves from? i c.station) (hready : c.station.isReady = true)
    (hno : i.opcode ≠ .load) {known : Known}
    (hknown : ∀ r value, from? r = .resolved value → known r = some value) :
    i.outcome known = some c.result := by
  obtain ⟨op, computed, memory, hop, hresult, hc⟩ := hv
  obtain ⟨hleft, hright⟩ := hserves.known hready hknown
  obtain rfl : op = i.opcode := Option.some.inj (hop.symm.trans hserves.opcode)
  rw [Station.result, hop, hserves.imm] at hresult
  dsimp only at hresult
  rw [Instruction.outcome_of_sources hleft hright, hresult, hc]
  simp only [Except.toOption, Option.map_some, Option.some.injEq]
  cases ho : i.opcode <;> simp_all [Memory.access]

/-- The position that the slots before a place lead up to; cancelled ones do not count. -/
def Machine.upTo (m : Machine) (k : Nat) : Nat :=
  m.commits.toList.length + ((m.rob.window.take k).filter Slot.isLive).length

theorem filter_getElem? {α : Type} {p : α → Bool} {xs : List α} {k : Nat} {x : α} (hk : xs[k]? = some x)
    (hx : p x = true) : (xs.filter p)[((xs.take k).filter p).length]? = some x := by
  obtain ⟨hlt, rfl⟩ := List.getElem?_eq_some_iff.1 hk
  have hsplit : xs.filter p = (xs.take k).filter p ++ xs[k] :: (xs.drop (k + 1)).filter p := by
    conv => lhs; rw [← List.take_append_drop k xs, List.drop_eq_getElem_cons hlt]
    rw [List.filter_append, List.filter_cons_of_pos hx]
  rw [hsplit, List.getElem?_append_right (Nat.le_refl _), Nat.sub_self, List.getElem?_cons_zero]

section Slots

variable {code : List Instruction} {m : Machine} {k : Nat} {s : Slot}

/-- The instruction in a slot that is not cancelled, and its position. -/
theorem Coherent.exists_instr (h : Coherent code m) (hk : m.rob.window[k]? = some s)
    (hl : s.isLive = true) : ∃ id i, s.occupant = some id ∧ id.position = m.upTo k ∧
      code[m.upTo k]? = some i ∧ s.instr = some i ∧ s.arch = i.dest := by
  obtain ⟨id, i, ho, hi, hinstr, harch⟩ := h.order.holds s (List.mem_of_getElem? hk)
  have hpc := h.order.pc_le
  let n := ((m.rob.window.take k).filter Slot.isLive).length
  have hfilter : ((m.rob.window.filter Slot.isLive).map Slot.occupant)[n]? = some s.occupant := by
    rw [List.getElem?_map, filter_getElem? hk hl]
    rfl
  rw [h.order.live_eq, List.getElem?_map, Option.map_eq_some_iff] at hfilter
  obtain ⟨p, hp, hid⟩ := hfilter
  obtain ⟨hn, hp⟩ := List.getElem?_eq_some_iff.1 hp
  rw [List.length_range'] at hn
  rw [List.getElem_range', Nat.one_mul] at hp
  have hupTo : m.upTo k = p := hp
  obtain ⟨v, -, hv, hpos⟩ := h.order.idAt_eq (show p < code.length by omega)
  rw [hv, ho] at hid
  have hposition : id.position = m.upTo k := by rw [← Option.some.inj hid, hpos, hupTo]
  exact ⟨id, i, ho, hposition, hposition ▸ hi, hinstr, harch⟩

theorem Machine.upTo_succ (hk : m.rob.window[k]? = some s) :
    m.upTo (k + 1) = m.upTo k + if s.isLive = true then 1 else 0 := by
  unfold upTo
  rw [List.take_add_one, hk, Option.toList_some, List.filter_append, List.length_append, List.filter_singleton]
  cases s.isLive <;> simp [Nat.add_assoc]

end Slots

/-- What has happened so far is what the program in order says. -/
structure Foretold (start : RegisterFile) (code : List Instruction) (m : Machine) : Prop where
  recorded : ∃ cs, Recorded cs m
  committed : ∀ r, knownBefore start code m.commits.toList.length r = some (m.registers.read r)
  outcomes : ∀ (p : Nat) (i : Instruction), p < m.commits.toList.length → code[p]? = some i →
    (i.outcome (knownBefore start code p)).isSome = true

namespace Foretold

variable {start : RegisterFile} {code : List Instruction} {m m' : Machine} {k : Nat} {s : Slot}

theorem of_eq (h : Foretold start code m) (hrecorded : ∃ cs, Recorded cs m')
    (hregisters : m'.registers = m.registers) (hcommits : m'.commits = m.commits) :
    Foretold start code m' where
  recorded := hrecorded
  committed := by rw [hregisters, hcommits]; exact h.committed
  outcomes := by rw [hcommits]; exact h.outcomes

theorem of_core (h : Foretold start code m) (hs : SameCore m m') : Foretold start code m' := by
  obtain ⟨cs, hcs⟩ := h.recorded
  exact h.of_eq ⟨cs, hcs.of_eq hs.rob hs.fetch hs.registers⟩ hs.registers hs.commits

/-- A result that was written is the outcome, if the operands resolved for its slot are what is known. -/
theorem outcome_eq (h : Foretold start code m) (hno : ∀ i ∈ code, i.opcode ≠ .load) {known : Known}
    {i : Instruction} (hk : m.rob.window[k]? = some s) (hl : s.isLive = true) (hr : s.ready = true)
    (hinstr : s.instr = some i) (hi : i ∈ code)
    (hknown : ∀ r value, source m.registers (m.rob.window.take k) r = .resolved value →
      known r = some value) : ∃ value, s.result = some value ∧ i.outcome known = some value := by
  obtain ⟨cs, hcs⟩ := h.recorded
  obtain ⟨c, hc, -, hresult, hready, s', j, hk', hj, hserves⟩ := hcs.written k s hk hl hr
  obtain rfl := Option.some.inj (hk.symm.trans hk')
  obtain rfl := Option.some.inj (hinstr.symm.trans hj)
  exact ⟨c.result, hresult, (hcs.valid c hc).outcome hserves hready (hno i hi) hknown⟩

/-- Whatever resolved operand the first `k` slots give is the one that the program in order gives. By induction
on the slots: one that writes the register has got its result from operands of the slots before it. -/
theorem source_known (h : Foretold start code m) (hcoh : Coherent code m)
    (hno : ∀ i ∈ code, i.opcode ≠ .load) (k : Nat) : ∀ r value,
      source m.registers (m.rob.window.take k) r = .resolved value →
        knownBefore start code (m.upTo k) r = some value := by
  induction k with
  | zero =>
    intro r value hs
    obtain rfl : m.registers.read r = value := by simpa [source, lastWriter] using hs
    exact h.committed r
  | succ k ih =>
    cases hk : m.rob.window[k]? with
    | none =>
      have hle : m.rob.window.length ≤ k := List.getElem?_eq_none_iff.1 hk
      rw [Machine.upTo, List.take_of_length_le (Nat.le_succ_of_le hle)]
      rw [Machine.upTo, List.take_of_length_le hle] at ih
      exact ih
    | some s =>
      intro r value hs
      rw [List.take_add_one, hk, Option.toList_some, source, lastWriter_concat] at hs
      rw [Machine.upTo_succ hk]
      by_cases hl : s.isLive = true
      case neg =>
        rw [if_neg (by simp [Slot.writes, hl])] at hs
        rw [if_neg hl]
        exact ih r value hs
      case pos =>
        obtain ⟨id, i, -, -, hi, hinstr, harch⟩ := hcoh.exists_instr hk hl
        rw [if_pos hl, knownBefore_succ hi, Known.next]
        by_cases hdest : i.dest = some r
        case neg =>
          rw [if_neg (by simp [Slot.writes, harch, hdest])] at hs
          rw [if_neg hdest]
          exact ih r value hs
        case pos =>
          obtain ⟨tag, ht⟩ := Option.isSome_iff_exists.1 (hcoh.tags.isSome (List.mem_of_getElem? hk))
          rw [if_pos (by simp [Slot.writes, hl, harch, hdest])] at hs
          rw [if_pos hdest]
          have hready : s.ready = true ∧ s.result = some value := by
            cases hr : s.ready <;> cases hres : s.result <;> simp_all [Slot.operand]
          obtain ⟨x, hx, houtcome⟩ :=
            h.outcome_eq hno hk hl hready.1 hinstr (List.mem_of_getElem? hi) ih
          rw [houtcome, ← hx, hready.2]

/-- The head's result is the outcome of the next instruction in order. -/
theorem commit (h : Foretold start code m) (hcoh : Coherent code m) (hno : ∀ i ∈ code, i.opcode ≠ .load)
    {rest : List Slot} {v : Instance} {tag : Tag} {value : Word} {rob : ReorderBuffer}
    {physical : PhysicalFile} (done : m.Commits s rest v tag value rob physical)
    (hrecorded : ∃ cs, Recorded cs m') (hregisters : m'.registers = m.registers.write s.arch value)
    (hcommits : m'.commits = m.commits.push v.id) : Foretold start code m' := by
  have hk : m.rob.window[0]? = some s := by rw [done.head]; rfl
  obtain ⟨-, i, -, -, hi, hinstr, harch⟩ := hcoh.exists_instr hk done.live
  have hupTo : m.upTo 0 = m.commits.toList.length := by simp [Machine.upTo]
  obtain ⟨x, hx, houtcome⟩ := h.outcome_eq hno hk done.live done.ready hinstr (List.mem_of_getElem? hi)
    (h.source_known hcoh hno 0)
  obtain rfl := Option.some.inj (hx.symm.trans done.result)
  rw [hupTo] at hi houtcome
  have hlength : m'.commits.toList.length = m.commits.toList.length + 1 := by
    rw [hcommits, Array.toList_push, List.length_append]
    rfl
  refine ⟨hrecorded, fun r => ?_, fun p j hp hj => ?_⟩
  · rw [hlength, knownBefore_succ hi, Known.next, hregisters, done.reads, harch]
    split
    · exact houtcome
    · exact h.committed r
  · by_cases hlt : p < m.commits.toList.length
    · exact h.outcomes p j hlt hj
    · obtain rfl : p = m.commits.toList.length := by omega
      obtain rfl := Option.some.inj (hj.symm.trans hi)
      rw [houtcome]
      rfl

theorem move (h : Foretold start code m) (hcoh : Coherent code m) (hno : ∀ i ∈ code, i.opcode ≠ .load)
    {d : List Deed} (hm : m.Move d m') : Foretold start code m' := by
  obtain ⟨cs, hcs⟩ := h.recorded
  have hrecorded : ∃ cs, Recorded cs m' := ⟨_, hcs.move hcoh hm⟩
  cases hcoh.change hm
  case commit done => exact h.commit hcoh hno done hrecorded rfl rfl
  all_goals exact h.of_eq hrecorded rfl rfl

theorem moves (h : Foretold start code m) (hcoh : Coherent code m) (hno : ∀ i ∈ code, i.opcode ≠ .load)
    {ds : List Deed} (hm : m.Moves ds m') : Foretold start code m' :=
  (hm.keeps (fun _ m => Coherent code m ∧ Foretold start code m)
    (fun _ _ _ _ h hm => ⟨h.1.move hm, h.2.move h.1 hno hm⟩) [] ⟨hcoh, h⟩).2

end Foretold

/-! ### Where a fault comes from -/

/-- A fault, if there is one, is of this kind. -/
def Blames {α : Type} (blame : Fault → Prop) (x : Except Halt α) : Prop := ∀ f, x = .error (.fault f) → blame f

namespace Blames

variable {α β σ : Type} {blame : Fault → Prop}

theorem ok (a : α) : Blames blame (.ok a) := nofun

theorem guarded (x : Except Breach α) : Blames blame (Halt.guarded x) := by
  cases x <;> nofun

theorem bind {x : Except Halt α} {f : α → Except Halt β} (hx : Blames blame x)
    (hf : ∀ a, x = .ok a → Blames blame (f a)) : Blames blame (x >>= f) := by
  cases x with
  | ok a => exact hf a rfl
  | error e =>
    intro fault h
    exact hx fault (by simpa [Bind.bind, Except.bind] using h)

theorem foldlM {f : σ → β → Except Halt σ} (kept : List β → σ → Prop)
    (blames : ∀ x rest s, kept (x :: rest) s → Blames blame (f s x))
    (round : ∀ x rest s s', kept (x :: rest) s → f s x = .ok s' → kept rest s') {xs : List β} {s : σ}
    (h : kept xs s) : Blames blame (xs.foldlM f s) := by
  induction xs generalizing s with
  | nil => exact .ok s
  | cons x rest ih =>
    rw [List.foldlM_cons]
    exact (blames x rest s h).bind fun s' hs' => ih (round x rest s s' h hs')

end Blames

/-- The program divides by zero at the position of the fault. -/
def Justified (start : RegisterFile) (code : List Instruction) (f : Fault) : Prop :=
  ∃ i, code[f.position]? = some i ∧ f.instr = some i ∧ i.DividesByZero (knownBefore start code f.position)

namespace Machine

variable {start : RegisterFile} {code : List Instruction} {m : Machine} {blame : Fault → Prop}

theorem deliver_blames (m : Machine) (i : Nat) (name : String) (slot : Nat) (tag : Tag) (result : Word)
    (instr : Option Instruction) : Blames blame (m.deliver i name slot tag result instr) := by
  unfold deliver
  exact (Blames.guarded _).bind fun _ _ => .ok _

/-- A station faults on operands that its instruction has in the program's own order. -/
theorem writeResult_blames (hcoh : Coherent code m) (h : Foretold start code m)
    (hno : ∀ i ∈ code, i.opcode ≠ .load) (hrt : ∀ i ∈ code, i.opcode = .div → i.rt.isSome = true) {i : Nat}
    (hdone : ∀ st, m.stations.stations[i]? = some st → st.busy = true → st.remaining = 0) :
    Blames (Justified start code) (m.writeResult i) := by
  unfold writeResult
  refine (Blames.guarded _).bind fun st hst => ?_
  have hst : m.stations.stations[i]? = some st := readAt_eq_ok_iff.1 (guarded_eq_ok_iff.1 hst)
  by_cases hb : st.busy = true
  case neg =>
    rw [Bool.not_eq_true] at hb
    simp only [hb]
    exact .ok m
  case pos =>
    obtain ⟨k, s, v, op, tag, awaits, opcode, dest, named, slotFor⟩ := exists_slot_of_busy hcoh hst hb
    simp only [hb, opcode, dest, slotFor]
    refine (Blames.guarded _).bind fun slot hslot => ?_
    have hslot : m.rob.slots[m.rob.place k]? = some slot := readAt_eq_ok_iff.1 (guarded_eq_ok_iff.1 hslot)
    obtain rfl := Option.some.inj ((hcoh.ring.getElem?_slots awaits.slot).symm.trans hslot)
    split
    · next e herror =>
      obtain ⟨id, instr, hid, hposition, hcode, hinstr, -⟩ := hcoh.exists_instr awaits.slot awaits.isLive
      obtain ⟨-, s', j, hk', hj, hserves⟩ :=
        hcoh.pending_of_busy hst hb awaits.slot (named.trans dest.symm)
      obtain rfl := Option.some.inj (awaits.slot.symm.trans hk')
      obtain rfl := Option.some.inj (hinstr.symm.trans hj)
      -- it has counted down to the end, so both operands have been there since
      have hready := hcoh.staffed.finished i st hst hb (hdone st hst hb)
      obtain ⟨hleft, hright⟩ := hserves.known hready (h.source_known hcoh hno k)
      rw [Station.result, hserves.opcode, hserves.imm] at herror
      dsimp only at herror
      intro f hf
      obtain rfl := Halt.fault.inj (Except.error.inj hf)
      dsimp only [Justified]
      rw [hid, Option.map_some, Option.getD_some, hposition]
      exact ⟨instr, hcode, hinstr, Instruction.dividesByZero_of_error
        (hrt instr (List.mem_of_getElem? hcode)) hleft hright herror⟩
    · refine (deliver_blames _ _ _ _ _ _ _).bind fun n _ => ?_
      split <;> exact .ok _

theorem writeResults_blames (hcoh : Coherent code m) (h : Foretold start code m)
    (hno : ∀ i ∈ code, i.opcode ≠ .load) (hrt : ∀ i ∈ code, i.opcode = .div → i.rt.isSome = true) :
    Blames (Justified start code) m.writeResults := by
  refine Blames.foldlM (fun rest n => Writing code rest n ∧ Foretold start code n) ?_ ?_ ⟨.start hcoh, h⟩
  · exact fun i rest n ⟨hn, hf⟩ =>
      writeResult_blames hn.coherent hf hno hrt (hn.done i (List.mem_cons_self ..))
  · intro i rest n n' ⟨hn, hf⟩ hw
    obtain ⟨hturn, hrest⟩ := hn.turn hw
    exact ⟨hrest, hf.moves hn.coherent hno hturn.moves⟩

theorem executeStation_blames (m : Machine) (i : Nat) : Blames blame (m.executeStation i) := by
  unfold executeStation
  refine (Blames.guarded _).bind fun st _ => ?_
  split
  · exact .ok m
  · split
    · exact .ok _
    · split
      · exact .ok m
      · refine (Blames.guarded _).bind fun slot _ => ?_
        split <;> exact .ok _

theorem execute_blames (m : Machine) : Blames blame m.execute :=
  Blames.foldlM (fun _ _ => True) (fun i _ n _ => executeStation_blames n i) (fun _ _ _ _ _ _ => trivial) trivial

theorem dispatch_blames (m : Machine) (v : Instance) (i : Nat) (left : Operand) (right : Option Operand)
    (tag : Tag) : Blames blame (m.dispatch v i left right tag) := by
  unfold dispatch
  exact (Blames.guarded _).bind fun _ _ => (Blames.guarded _).bind fun _ _ =>
    (Blames.guarded _).bind fun _ _ => .ok _

theorem issue_blames (m : Machine) : Blames blame m.issue := by
  unfold issue
  split
  · exact .ok m
  · split
    · exact .ok _
    · split
      · exact .ok _
      · refine (Blames.guarded _).bind fun (left, right) _ => ?_
        dsimp only
        split
        · exact .ok _
        · exact dispatch_blames _ _ _ _ _ _

/-- No other phase faults than the first. -/
theorem blames_of_writeResults (h : Blames blame m.tick.writeResults) : Blames blame m.runCycle := by
  unfold runCycle
  exact h.bind fun _ _ => (execute_blames _).bind fun _ _ => (issue_blames _).bind fun _ _ =>
    Blames.bind (Blames.guarded _) fun _ _ => .ok _

/-- A cycle faults only where the program divides by zero. -/
theorem runCycle_blames (hcoh : Coherent code m) (h : Foretold start code m)
    (hno : ∀ i ∈ code, i.opcode ≠ .load) (hrt : ∀ i ∈ code, i.opcode = .div → i.rt.isSome = true) :
    Blames (Justified start code) m.runCycle :=
  blames_of_writeResults (writeResults_blames hcoh.tick (h.of_core m.sameCore_tick) hno hrt)

end Machine

theorem Instruction.isSome_rt_of_misfit {highest : UInt16} {i : Instruction} (h : i.misfit highest = none)
    (hop : i.opcode = .div) : i.rt.isSome = true := by
  unfold misfit missingOperand at h
  cases hrt : i.rt with
  | some q => rfl
  | none => simp [hop, hrt] at h

theorem Foretold.initial {config : Config} {code : List Instruction} {m : Machine} (hc : config.Admitted)
    (h : Machine.initial config code = .ok m) : Foretold (Machine.initialRegisters config) code m := by
  have hfresh := Machine.fresh_of_initial hc h
  refine ⟨⟨[], .start m hfresh.window⟩, fun r => ?_, fun p i hp => ?_⟩
  · rw [hfresh.length_commits, hfresh.registers]
    rfl
  · rw [hfresh.length_commits] at hp
    exact absurd hp (Nat.not_lt_zero p)

/-- Cycle after cycle, as long as none faults. -/
theorem foretold_of_straightRun {config : Config} {code : List Instruction} (hc : config.Admitted)
    (hno : ∀ i ∈ code, i.opcode ≠ .load) {k : Nat} {m : Machine} {events : List Event}
    (h : straightRun config code k = .ok (m, events)) :
    Coherent code m ∧ Foretold (Machine.initialRegisters config) code m := by
  induction k generalizing m events with
  | zero =>
    simp only [straightRun, bind_eq_ok_iff, guarded_eq_ok_iff, pure_eq_ok_iff, Machine.takeEvents] at h
    obtain ⟨first, hfirst, he⟩ := h
    obtain ⟨rfl, -⟩ := Prod.mk.inj he
    exact ⟨(Coherent.initial hc hfirst).drained, (Foretold.initial hc hfirst).of_core first.sameCore_drained⟩
  | succ k ih =>
    simp only [straightRun, bind_eq_ok_iff, pure_eq_ok_iff, Machine.takeEvents] at h
    obtain ⟨⟨before, earlier⟩, hbefore, after, hafter, he⟩ := h
    obtain ⟨rfl, -⟩ := Prod.mk.inj he
    obtain ⟨hcoh, hforetold⟩ := ih hbefore
    obtain ⟨last, hmoves, rfl⟩ := Machine.runCycle_moves hcoh hafter
    have hlast := (hforetold.of_core before.sameCore_tick).moves hcoh.tick hno hmoves
    exact ⟨(hcoh.tick.moves hmoves).settle.drained,
      (hlast.of_core last.sameCore_settle).of_core last.settle.sameCore_drained⟩

theorem Session.runCycle_of_failure {s s' : Session} {f : Fault}
    (h : s.step = .ok (s', .error (.arithmetic f))) : s.machine.runCycle = .error (.fault f) := by
  unfold step at h
  split at h
  · simp at h
  · split at h
    · simp at h
    · next fault hf =>
      simp only [Except.ok.injEq, Prod.mk.injEq, Except.error.injEq, Failure.arithmetic.injEq] at h
      rw [hf, h.2]
    · simp at h

namespace Session.Reached

variable {config : Config} {code : List Instruction} {trace : List Deed} {s s' : Session}

theorem isSome_rt (h : Reached config code trace s) : ∀ i ∈ code, i.opcode = .div → i.rt.isSome = true := by
  intro i hi
  have hnone := List.filterMap_eq_nil_iff.1 h.accepted i hi
  exact Instruction.isSome_rt_of_misfit (by simpa using hnone)

/-- Whatever commands came before, a step that fails has met a division by zero of the program. -/
theorem justified (hc : config.Admitted) (hno : ∀ i ∈ code, i.opcode ≠ .load)
    (h : Reached config code trace s) {commands : List Command} {before after : Session} {f : Fault}
    (hb : s.performAll commands = .ok before) (hs : before.step = .ok (after, .error (.arithmetic f))) :
    Justified (Machine.initialRegisters config) code f := by
  obtain ⟨hcoh, hforetold⟩ := foretold_of_straightRun hc hno (h.onTrack.performAll hb).chained.straight
  exact Machine.runCycle_blames hcoh hforetold hno h.isSome_rt f (runCycle_of_failure hs)

/-- A run ends where steps lead: in a session that is complete, or in a step that fails. -/
theorem runWithin (h : Reached config code trace s) {n : Nat} {answer : Except Failure Nat}
    (hr : s.runWithin n = .ok (s', answer)) :
    (∀ cycles, answer = .ok cycles → s'.isComplete = true ∧ ∃ trace, Reached config code trace s') ∧
    ∀ f, answer = .error (.arithmetic f) →
      ∃ trace before, Reached config code trace before ∧ before.step = .ok (s', .error (.arithmetic f)) := by
  have hkept : ∀ s s' : Session, (∃ trace, Reached config code trace s) → s.step = .ok (s', .ok ()) →
      ∃ trace, Reached config code trace s' := by
    rintro s s' ⟨earlier, hreached⟩ hstep
    exact ⟨_, hreached.step hstep⟩
  obtain ⟨last, ⟨trace', hlast⟩, hends⟩ := runWithin_ending _ hkept ⟨trace, h⟩ hr
  cases hends with
  | complete done => exact ⟨fun _ _ => ⟨done, trace', hlast⟩, by simp⟩
  | failure fails =>
    refine ⟨by simp, fun f hf => ⟨trace', last, hlast, ?_⟩⟩
    obtain rfl := Except.error.inj hf
    exact fails
  | limit => exact ⟨by simp, by simp⟩

/-- Whatever has committed did not divide by zero. -/
theorem not_dividesByZero (hc : config.Admitted) (hno : ∀ i ∈ code, i.opcode ≠ .load)
    (h : Reached config code trace s) (hs : s.isComplete = true) {p : Nat} {i : Instruction}
    (hi : code[p]? = some i) :
    ¬i.DividesByZero (knownBefore (Machine.initialRegisters config) code p) := by
  have hall := (h.finished hc).complete_iff.1 hs
  have hp : p < code.length := (List.getElem?_eq_some_iff.1 hi).1
  obtain ⟨-, hforetold⟩ := foretold_of_straightRun hc hno h.onTrack.chained.straight
  exact Instruction.not_dividesByZero_of_outcome (hforetold.outcomes p i (by omega) hi)

end Session.Reached

/-- Whatever commands came before, a step fails only with a fault of a division, be it behind a branch that is
still open, whose sources have values in the program's own order and whose divisor is a zero there. A run with
cycles enough succeeds exactly when the program in its own order never divides by zero, and ends in such a fault
otherwise. -/
theorem faults_are_divisions_by_zero {config : Config} {code : List Instruction} {trace : List Deed}
    {s : Session} (hc : config.Admitted) (hno : ∀ i ∈ code, i.opcode ≠ .load)
    (h : Session.Reached config code trace s) :
    let before := knownBefore (Machine.initialRegisters config) code
    (∀ commands s₁ s₂ f, s.performAll commands = .ok s₁ → s₁.step = .ok (s₂, .error (.arithmetic f)) →
      ∃ i, code[f.position]? = some i ∧ f.instr = some i ∧ i.DividesByZero (before f.position)) ∧
    ((∀ i ∈ code, 1 ≤ config.stations i.opcode.unit) →
      code.length * max 8 config.robCapacity.toNat ≤ config.maxCycles.toNat →
      ∃ s' answer, s.run = .ok (s', answer) ∧
        ((∃ cycles, answer = .ok cycles) ∧
            (∀ (p : Nat) (i : Instruction), code[p]? = some i → ¬i.DividesByZero (before p)) ∨
          (∃ f, answer = .error (.arithmetic f)) ∧
            ∃ (p : Nat) (i : Instruction), code[p]? = some i ∧ i.DividesByZero (before p))) := by
  intro before
  refine ⟨fun _ _ _ _ hcommands hs => h.justified hc hno hcommands hs, fun hunits hmax => ?_⟩
  have hpace : s.machine.pace = max 8 config.robCapacity.toNat := by
    rw [Machine.pace, (h.equipped hc).slots]
  have hends : s.Ends (s.config.maxCycles.toNat - s.machine.cycle) := by
    refine h.ends hc hunits ?_
    rw [h.onTrack.config_eq, hpace]
    omega
  obtain ⟨s', answer, hrun, hanswer⟩ := hends.runWithin
  obtain ⟨hok, hfault⟩ := h.runWithin hrun
  refine ⟨s', answer, hrun, ?_⟩
  rcases hanswer with ⟨ha, -⟩ | ⟨f, hf⟩
  · obtain ⟨hcomplete, last, hreached⟩ := hok _ ha
    exact .inl ⟨⟨_, ha⟩, fun p i hi => hreached.not_dividesByZero hc hno hcomplete hi⟩
  · obtain ⟨last, previous, hreached, hstep⟩ := hfault f hf
    have hnothing : previous.performAll [] = .ok previous := rfl
    obtain ⟨i, hi, -, hzero⟩ := hreached.justified hc hno hnothing hstep
    exact .inr ⟨⟨f, hf⟩, f.position, i, hi, hzero⟩

/-- After six cycles the branch has no result yet, and behind it a division is about to fault, as it does in
order; a run that starts here ends with that. -/
theorem faults_are_divisions_by_zero_speculative : ∃ (config : Config) (code : List Instruction)
    (trace : List Deed) (s s' : Session) (f : Fault), config.Admitted ∧
      Session.Reached config code trace s ∧ s.machine.rob.window.map Slot.ready = [false, false] ∧
      s.step = .ok (s', .error (.arithmetic f)) ∧ f.position = 2 ∧
      (∃ i, f.instr = some i ∧ i.DividesByZero (knownBefore (Machine.initialRegisters config) code 2)) ∧
      ∃ last fault, s.run = .ok (last, .error (.arithmetic fault)) := by
  let mul : Instruction := ⟨.mul, some ⟨3⟩, ⟨1⟩, some ⟨2⟩, 0, []⟩
  let branch : Instruction := ⟨.beq, none, ⟨3⟩, some ⟨0⟩, 1, []⟩
  let division : Instruction := ⟨.div, some ⟨4⟩, ⟨2⟩, some ⟨0⟩, 0, []⟩
  let config : Config := { Config.standard with memorySize := 0 }
  have hadmitted : config.Admitted := ⟨by decide, by decide, by decide⟩
  have hno : ∀ i ∈ [mul, branch, division], i.opcode ≠ .load := by decide
  have hunits : ∀ i ∈ [mul, branch, division], 1 ≤ config.stations i.opcode.unit := by decide
  let faultAt (s : Session) : Option Nat := s.step.toOption.bind fun (_, answer) =>
    match answer with
    | .error (.arithmetic f) => some f.position
    | _ => none
  have hrun : ∃ r ∈ Session.tracedRun config [mul, branch, division] 6,
      r.2.machine.rob.window.map Slot.ready = [false, false] ∧ faultAt r.2 = some 2 := by
    decide +kernel
  obtain ⟨⟨trace, s⟩, hr, hready, hfault⟩ := hrun
  have hreached := Session.Reached.of_tracedRun hr
  obtain ⟨⟨s', answer⟩, hstep, hposition⟩ := Option.bind_eq_some_iff.1 hfault
  rw [toOption_eq_some_iff] at hstep
  dsimp only at hposition
  split at hposition
  · next f =>
    obtain hposition : f.position = 2 := Option.some.inj hposition
    obtain ⟨hjustified, hends⟩ := faults_are_divisions_by_zero hadmitted hno hreached
    obtain ⟨i, hcode, hinstr, hzero⟩ := hjustified [] s s' f rfl hstep
    rw [hposition] at hcode hzero
    obtain ⟨last, answer, hlast, ⟨-, hnever⟩ | ⟨⟨fault, rfl⟩, -⟩⟩ := hends hunits (by decide)
    · exact absurd hzero (hnever 2 i hcode)
    · exact ⟨config, _, trace, s, s', f, hadmitted, hreached, hready, hstep, hposition, ⟨i, hinstr, hzero⟩,
        last, fault, hlast⟩
  · simp at hposition

end OutOfOrder
