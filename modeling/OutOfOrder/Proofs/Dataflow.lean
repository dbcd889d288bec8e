import OutOfOrder.Proofs.InOrder
import OutOfOrder.Proofs.ProgramOrder
import OutOfOrder.Proofs.Window
import OutOfOrder.Machine.Operand

/-!
Where an operand comes from, told by the window alone: the last slot that writes the register, or else the
register file. What a reader is promised that way stays true while results arrive and slots retire.
-/

set_option autoImplicit false

namespace OutOfOrder

namespace Slot

def writes (r : Register) (s : Slot) : Bool := s.isLive && s.arch == some r

/-- What a reader of the slot's register gets. -/
def operand (s : Slot) (committed : Word) : Operand :=
  match s.ready, s.result, s.tag with
  | true, some result, _ => .resolved result
  | _, _, some tag => .pending tag
  | _, _, none => .resolved committed

theorem SameRole.writes {s s' : Slot} (h : s.SameRole s') (r : Register) : s'.writes r = s.writes r := by
  simp [Slot.writes, h.isLive, h.arch]

end Slot

def lastWriter (w : List Slot) (r : Register) : Option Slot := (w.filter (Slot.writes r)).getLast?

def source (regs : RegisterFile) (w : List Slot) (r : Register) : Operand :=
  match lastWriter w r with
  | none => .resolved (regs.read r)
  | some s => s.operand (regs.read r)

theorem mem_of_lastWriter {w : List Slot} {r : Register} {s : Slot} (h : lastWriter w r = some s) :
    s ∈ w ∧ s.writes r = true := by
  have hm := List.mem_of_getLast? h
  exact List.mem_filter.1 hm

/-! ### The scan of the buffer -/

/-- The slots were issued one after the other, none of them later than a certain cycle. -/
structure Aged (bound : Nat) (w : List Slot) : Prop where
  issued : ∀ s ∈ w, ∃ c, s.times.issue = some c ∧ c ≤ bound
  sorted : w.Pairwise fun s t => notLater s.times.issue t.times.issue = true

namespace Aged

variable {bound : Nat} {w : List Slot}

theorem map (h : Aged bound w) {u : Slot → Slot} (hu : ∀ s ∈ w, (u s).times.issue = s.times.issue) :
    Aged bound (w.map u) := by
  constructor
  · intro s' hs'
    obtain ⟨s, hs, rfl⟩ := List.mem_map.1 hs'
    rw [hu s hs]
    exact h.issued s hs
  · rw [List.pairwise_map]
    exact h.sorted.imp_of_mem fun hs ht hst => by rwa [hu _ hs, hu _ ht]

theorem mono (h : Aged bound w) {bound' : Nat} (hb : bound ≤ bound') : Aged bound' w where
  issued := by
    intro s hs
    obtain ⟨c, hc, hlt⟩ := h.issued s hs
    exact ⟨c, hc, by omega⟩
  sorted := h.sorted

theorem append (h : Aged bound w) {s : Slot} (hs : s.times.issue = some bound) :
    Aged bound (w ++ [s]) := by
  constructor
  · intro t ht
    rcases List.mem_append.1 ht with ht | ht
    · exact h.issued t ht
    · rw [List.mem_singleton.1 ht]
      exact ⟨bound, hs, Nat.le_refl bound⟩
  · rw [List.pairwise_append]
    refine ⟨h.sorted, by simp, ?_⟩
    intro t ht t' ht'
    rw [List.mem_singleton.1 ht', hs]
    obtain ⟨c, hc, hle⟩ := h.issued t ht
    rw [hc]
    exact decide_eq_true hle

theorem tail {s : Slot} (h : Aged bound (s :: w)) : Aged bound w where
  issued := fun t ht => h.issued t (List.mem_cons_of_mem s ht)
  sorted := (List.pairwise_cons.1 h.sorted).2

end Aged

/-- A search for the last of the latest ends at the end of a sorted list. -/
theorem foldl_latest {α : Type} (latest : α → Option Nat) {step : Option α → α → Option α}
    (hnone : ∀ i, step none i = some i)
    (hsome : ∀ j i, notLater (latest j) (latest i) = true → step (some j) i = some i) {xs : List α}
    {best : Option α} (hbest : ∀ j ∈ best, ∀ i ∈ xs, notLater (latest j) (latest i) = true)
    (hxs : xs.Pairwise fun j i => notLater (latest j) (latest i) = true) :
    xs.foldl step best = (xs.getLast? <|> best) := by
  induction xs generalizing best with
  | nil => simp
  | cons x rest ih =>
    rw [List.pairwise_cons] at hxs
    have hstep : step best x = some x := by
      cases best with
      | none => exact hnone x
      | some j => exact hsome j x (hbest j rfl x (List.mem_cons_self ..))
    rw [List.foldl_cons, hstep, ih (fun j hj => ?_) hxs.2, List.getLast?_cons]
    · cases rest.getLast? <;> rfl
    · obtain rfl := Option.mem_some.1 hj
      exact hxs.1

namespace ReorderBuffer

variable {b : ReorderBuffer} {bound : Nat}

theorem Contiguous.writers_eq (h : b.Contiguous) (r : Register) :
    b.writers r = ((List.range b.window.length).filter fun k => (b.nth k).writes r).map b.place := by
  rw [writers, h.inFlight_eq, List.filter_map]
  congr 1
  refine List.filter_congr fun k _ => ?_
  simp only [Function.comp_apply, getElem?_place]
  rfl

theorem Contiguous.filter_window (h : b.Contiguous) (p : Slot → Bool) :
    b.window.filter p = ((List.range b.window.length).filter fun k => p (b.nth k)).map b.nth := by
  conv => lhs; rw [h.window_eq]
  rw [List.filter_map]
  rfl

/-- The scan by issue cycle finds the last writer of the window. -/
theorem Contiguous.youngestWriter_eq (h : b.Contiguous) (ha : Aged bound b.window) (r : Register) :
    (b.youngestWriter r).bind (b.slots[·]?) = lastWriter b.window r := by
  have hcycle : ∀ k, b.issueCycle (b.place k) = (b.nth k).times.issue := fun k => by
    simp [issueCycle, getElem?_place]
  have hsorted : (b.writers r).Pairwise fun i j =>
      notLater (b.issueCycle i) (b.issueCycle j) = true := by
    have hf := ha.sorted.sublist (List.filter_sublist (p := Slot.writes r))
    rw [h.filter_window, List.pairwise_map] at hf
    rw [h.writers_eq, List.pairwise_map]
    exact hf.imp fun hij => by rwa [hcycle, hcycle]
  rw [youngestWriter, foldl_latest b.issueCycle (fun _ => rfl) (fun j i hji => if_pos hji)
    (by simp) hsorted, lastWriter, h.filter_window, h.writers_eq,
    List.getLast?_map, List.getLast?_map]
  cases ((List.range b.window.length).filter fun k => (b.nth k).writes r).getLast? with
  | none => rfl
  | some k => simpa using getElem?_place b k

end ReorderBuffer

theorem operandFor_eq {m : Machine} {bound : Nat} (h : m.rob.Contiguous) (ha : Aged bound m.rob.window)
    {r : Register} {o : Operand} (ho : m.operandFor r = .ok o) : o = source m.registers m.rob.window r := by
  unfold Machine.operandFor at ho
  rw [source, ← h.youngestWriter_eq ha r]
  generalize (m.rob.youngestWriter r).bind (m.rob.slots[·]?) = found at ho ⊢
  cases found with
  | none =>
    simp only [map_eq_ok_iff] at ho
    obtain ⟨value, hv, rfl⟩ := ho
    simp only [RegisterFile.read_of_get hv]
  | some s =>
    cases ht : s.tag with
    | none =>
      cases hr : s.ready <;> cases hres : s.result <;>
        simp only [hr, hres, ht, map_eq_ok_iff, Except.ok.injEq] at ho <;>
        simp only [Slot.operand, hr, hres, ht]
      case true.some => exact ho.symm
      all_goals
        obtain ⟨value, hv, rfl⟩ := ho
        rw [RegisterFile.read_of_get hv]
    | some tag =>
      cases hr : s.ready <;> cases hres : s.result <;>
        simp only [hr, hres, ht, Except.ok.injEq] at ho <;>
        simp only [Slot.operand, hr, hres, ht] <;> exact ho.symm

/-! ### What changes for a reader -/

section Source

variable {regs regs' : RegisterFile} {w rest : List Slot} {s : Slot} {r : Register}

theorem lastWriter_map {u : Slot → Slot} (hu : ∀ s ∈ w, (u s).writes r = s.writes r) :
    lastWriter (w.map u) r = (lastWriter w r).map u := by
  have hf : w.filter (Slot.writes r ∘ u) = w.filter (Slot.writes r) := List.filter_congr hu
  rw [lastWriter, List.filter_map, hf, List.getLast?_map, lastWriter]

theorem lastWriter_cons : lastWriter (s :: rest) r =
    (lastWriter rest r <|> if s.writes r then some s else none) := by
  unfold lastWriter
  rw [List.filter_cons]
  split
  · rw [List.getLast?_cons]
    cases (rest.filter (Slot.writes r)).getLast? <;> rfl
  · simp

theorem lastWriter_concat (w : List Slot) (s : Slot) (r : Register) :
    lastWriter (w ++ [s]) r = if s.writes r then some s else lastWriter w r := by
  unfold lastWriter
  rw [List.filter_append]
  cases hs : s.writes r <;> simp [hs]

/-- Progress that no reader notices. -/
theorem source_map {u : Slot → Slot} (hu : ∀ s ∈ w, s.SameRole (u s))
    (hr : ∀ s ∈ w, (u s).ready = s.ready ∧ (u s).result = s.result) :
    source regs (w.map u) r = source regs w r := by
  rw [source, source, lastWriter_map fun s hs => (hu s hs).writes r]
  cases hl : lastWriter w r with
  | none => rfl
  | some s =>
    have hs := (mem_of_lastWriter hl).1
    simp only [Option.map_some, Slot.operand, (hu s hs).tag, (hr s hs).1, (hr s hs).2]

/-- A result arrives at the slot with a tag, and nothing else changes that a reader can see. -/
structure Arrives (w : List Slot) (tag : Tag) (result : Word) (u : Slot → Slot) : Prop where
  sameRole : ∀ s ∈ w, s.SameRole (u s)
  tagged : ∀ s ∈ w, s.tag.isSome = true
  here : ∀ s ∈ w, s.tag = some tag → s.ready = false ∧ (u s).ready = true ∧ (u s).result = some result
  elsewhere : ∀ s ∈ w, s.tag ≠ some tag → (u s).ready = s.ready ∧ (u s).result = s.result

theorem Arrives.of_subset {v : List Slot} {u : Slot → Slot} {tag : Tag} {result : Word}
    (h : Arrives w tag result u) (hsub : v ⊆ w) : Arrives v tag result u where
  sameRole := fun s hs => h.sameRole s (hsub hs)
  tagged := fun s hs => h.tagged s (hsub hs)
  here := fun s hs => h.here s (hsub hs)
  elsewhere := fun s hs => h.elsewhere s (hsub hs)

theorem Arrives.isSome {u : Slot → Slot} {tag : Tag} {result : Word} (h : Arrives w tag result u)
    (hw : ∀ s ∈ w, s.ready = true → s.result.isSome = true) :
    ∀ s ∈ w.map u, s.ready = true → s.result.isSome = true := by
  intro s' hs' hready
  obtain ⟨s, hs, rfl⟩ := List.mem_map.1 hs'
  by_cases ht : s.tag = some tag
  · rw [(h.here s hs ht).2.2]
    rfl
  · rw [(h.elsewhere s hs ht).1] at hready
    rw [(h.elsewhere s hs ht).2]
    exact hw s hs hready

/-- Every reader of the slot takes the result off the bus. -/
theorem source_deliver {u : Slot → Slot} {tag : Tag} {result : Word} (h : Arrives w tag result u) :
    source regs (w.map u) r = (source regs w r).snoop tag result := by
  rw [source, source, lastWriter_map fun s hs => (h.sameRole s hs).writes r]
  cases hl : lastWriter w r with
  | none => rfl
  | some s =>
    have hs := (mem_of_lastWriter hl).1
    obtain ⟨t, hst⟩ := Option.isSome_iff_exists.1 (h.tagged s hs)
    simp only [Option.map_some, Slot.operand, (h.sameRole s hs).tag, hst]
    by_cases he : t = tag
    · subst he
      obtain ⟨hready, hready', hresult'⟩ := h.here s hs hst
      simp [hready, hready', hresult', Operand.snoop, Operand.awaits]
    · have hne : s.tag ≠ some tag := by
        rw [hst]
        exact fun h => he (Option.some.inj h)
      obtain ⟨hready', hresult'⟩ := h.elsewhere s hs hne
      rw [hready', hresult']
      cases s.ready <;> cases s.result <;> simp [Operand.snoop, Operand.awaits, he]

/-- What a head leaves in the register file is what its readers got from it. -/
theorem source_commit {value : Word} (ht : ∀ t ∈ rest, t.tag.isSome = true) (hl : s.isLive = true)
    (hready : s.ready = true) (hresult : s.result = some value)
    (hregs : ∀ q, regs'.read q = if s.arch = some q then value else regs.read q) :
    source regs' rest r = source regs (s :: rest) r := by
  rw [source, source, lastWriter_cons]
  cases hw : lastWriter rest r with
  | none =>
    by_cases ha : s.arch = some r
    · simp [Slot.writes, hl, ha, Slot.operand, hready, hresult, hregs]
    · simp [Slot.writes, ha, hregs]
  | some t =>
    obtain ⟨tag, htag⟩ := Option.isSome_iff_exists.1 (ht t (mem_of_lastWriter hw).1)
    cases hr : t.ready <;> cases hres : t.result <;> simp [Slot.operand, htag, hr, hres]

theorem source_discard (hl : s.isLive = false) : source regs rest r = source regs (s :: rest) r := by
  simp [source, lastWriter_cons, Slot.writes, hl]

end Source

/-! ### What a station holds -/

/-- The station holds the instruction with the operands of the given sources. -/
structure Serves (from? : Register → Operand) (instr : Instruction) (st : Station) : Prop where
  unit : st.unit = instr.opcode.unit
  opcode : st.opcode = some instr.opcode
  imm : st.imm = instr.imm
  left : st.left = some (from? instr.sources.1)
  right : st.right = instr.sources.2.map from?

theorem Serves.snoop {from? : Register → Operand} {instr : Instruction} {st : Station}
    (h : Serves from? instr st) (tag : Tag) (value : Word) :
    Serves (fun r => (from? r).snoop tag value) instr (st.snoop tag value) where
  unit := h.unit
  opcode := h.opcode
  imm := h.imm
  left := by simp [Station.snoop, h.left]
  right := by simp [Station.snoop, h.right, Function.comp_def]

/-- The station holds what the `k`-th slot's instruction gets from the slots before it. -/
def Fed (regs : RegisterFile) (w : List Slot) (k : Nat) (st : Station) : Prop :=
  ∃ s instr, w[k]? = some s ∧ s.instr = some instr ∧ Serves (source regs (w.take k)) instr st

namespace Fed

variable {regs regs' : RegisterFile} {w rest : List Slot} {k : Nat} {st : Station} {s : Slot}

/-- Only the operation and the operands count. -/
theorem of_eq (h : Fed regs w k st) {st' : Station} (hunit : st'.unit = st.unit)
    (hop : st'.opcode = st.opcode) (himm : st'.imm = st.imm) (hleft : st'.left = st.left)
    (hright : st'.right = st.right) : Fed regs w k st' := by
  obtain ⟨s, instr, hs, hi, hserves⟩ := h
  exact ⟨s, instr, hs, hi, hunit.trans hserves.unit, hop.trans hserves.opcode,
    himm.trans hserves.imm, hleft.trans hserves.left, hright.trans hserves.right⟩

theorem map (h : Fed regs w k st) {u : Slot → Slot} (hu : ∀ s ∈ w, s.SameRole (u s))
    (hr : ∀ s ∈ w, (u s).ready = s.ready ∧ (u s).result = s.result) : Fed regs (w.map u) k st := by
  obtain ⟨s, instr, hs, hi, hserves⟩ := h
  have hsub := List.take_subset k w
  have hsource : source regs ((w.map u).take k) = source regs (w.take k) := by
    funext r
    rw [← List.map_take]
    exact source_map (fun t ht => hu t (hsub ht)) fun t ht => hr t (hsub ht)
  refine ⟨u s, instr, by simp [hs], ?_, ?_⟩
  · rw [(hu s (List.mem_of_getElem? hs)).instr, hi]
  · rw [hsource]
    exact hserves

theorem deliver (h : Fed regs w k st) {u : Slot → Slot} {tag : Tag} {result : Word}
    (ha : Arrives w tag result u) : Fed regs (w.map u) k (st.snoop tag result) := by
  obtain ⟨s, instr, hs, hi, hserves⟩ := h
  have hsource : source regs ((w.map u).take k) =
      fun r => (source regs (w.take k) r).snoop tag result := by
    funext r
    rw [← List.map_take]
    exact source_deliver (ha.of_subset (List.take_subset k w))
  refine ⟨u s, instr, by simp [hs], ?_, ?_⟩
  · rw [(ha.sameRole s (List.mem_of_getElem? hs)).instr, hi]
  · rw [hsource]
    exact hserves.snoop tag result

theorem commit {value : Word} (h : Fed regs (s :: rest) (k + 1) st)
    (ht : ∀ t ∈ rest, t.tag.isSome = true) (hl : s.isLive = true) (hready : s.ready = true)
    (hresult : s.result = some value)
    (hregs : ∀ q, regs'.read q = if s.arch = some q then value else regs.read q) :
    Fed regs' rest k st := by
  obtain ⟨t, instr, hk, hi, hserves⟩ := h
  have hsub := List.take_subset k rest
  have hsource : source regs' (rest.take k) = source regs ((s :: rest).take (k + 1)) := by
    funext r
    exact source_commit (fun t hm => ht t (hsub hm)) hl hready hresult hregs
  refine ⟨t, instr, by simpa using hk, hi, ?_⟩
  rw [hsource]
  exact hserves

theorem discard (h : Fed regs (s :: rest) (k + 1) st) (hl : s.isLive = false) :
    Fed regs rest k st := by
  obtain ⟨t, instr, hk, hi, hserves⟩ := h
  have hsource : source regs (rest.take k) = source regs ((s :: rest).take (k + 1)) := by
    funext r
    exact source_discard hl
  refine ⟨t, instr, by simpa using hk, hi, ?_⟩
  rw [hsource]
  exact hserves

/-- Nothing younger matters. -/
theorem of_take_eq {w' : List Slot} (h : Fed regs w k st) (hw : w'.take (k + 1) = w.take (k + 1)) :
    Fed regs w' k st := by
  obtain ⟨t, instr, hk, hi, hserves⟩ := h
  have hget : ∀ v : List Slot, v[k]? = (v.take (k + 1))[k]? := fun v => by
    rw [List.getElem?_take_of_lt (Nat.lt_succ_self k)]
  have htake : ∀ v : List Slot, v.take k = (v.take (k + 1)).take k := fun v => by
    rw [List.take_take, Nat.min_eq_left (Nat.le_succ k)]
  refine ⟨t, instr, by rw [hget, hw, ← hget, hk], hi, ?_⟩
  rw [htake, hw, ← htake]
  exact hserves

theorem append (h : Fed regs w k st) (s : Slot) : Fed regs (w ++ [s]) k st := by
  have hk : k < w.length := by
    obtain ⟨t, _, hk, _⟩ := h
    exact (List.getElem?_eq_some_iff.1 hk).1
  exact h.of_take_eq (List.take_append_of_le_length hk)

/-- The head reads the register file. -/
theorem head (h : Fed regs (s :: rest) 0 st) {instr : Instruction} (hi : s.instr = some instr) :
    Serves (fun r => .resolved (regs.read r)) instr st := by
  obtain ⟨t, j, hk, hj, hserves⟩ := h
  rw [List.getElem?_cons_zero] at hk
  obtain rfl := Option.some.inj hk
  obtain rfl := Option.some.inj (hj.symm.trans hi)
  exact hserves

end Fed

end OutOfOrder
