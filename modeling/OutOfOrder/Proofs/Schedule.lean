import Mathlib.Algebra.BigOperators.Group.Finset.Piecewise
import Mathlib.Data.Finset.Lattice.Fold
import Mathlib.Order.Nat
import OutOfOrder.Proofs.Run

/-!
The timetable of a program: when each position is issued, executes, writes and commits, told by recurrence from
the positions before it and without a machine.
-/

set_option autoImplicit false

namespace OutOfOrder

/-- The cycle of each stage of a position. -/
structure Entry where
  issue : Nat
  execute : Nat
  executeDone : Nat
  write : Nat
  commit : Nat
  deriving DecidableEq, Repr

def Entry.times (e : Entry) : Times :=
  ⟨some e.issue, some e.execute, some e.executeDone, some e.write, some e.commit⟩

theorem Entry.times_inj {e e' : Entry} (h : e.times = e'.times) : e = e' := by
  cases e
  cases e'
  simpa [times] using h

abbrev Timetable := Nat → Entry

/-- What a position before it has; zero for the first one. -/
def preceding (f : Nat → Nat) : Nat → Nat
  | 0 => 0
  | p + 1 => f p

/-- The latest position before that writes the register. -/
def writerBefore (code : List Instruction) (r : Register) : Nat → Option Nat
  | 0 => none
  | p + 1 => if code[p]?.bind Instruction.dest = some r then some p else writerBefore code r p

theorem lt_of_writerBefore {code : List Instruction} {r : Register} {p q : Nat}
    (h : writerBefore code r p = some q) : q < p := by
  induction p with
  | zero => simp [writerBefore] at h
  | succ p ih =>
    rw [writerBefore] at h
    split at h
    · rw [← Option.some.inj h]
      exact Nat.lt_succ_self p
    · exact Nat.lt_succ_of_lt (ih h)

/-- The positions that give an instruction at `p` its operands. -/
def producers (code : List Instruction) (p : Nat) (i : Instruction) : List Nat :=
  i.reads.filterMap fun r => writerBefore code r p

theorem mem_producers {code : List Instruction} {p q : Nat} {i : Instruction} :
    q ∈ producers code p i ↔ ∃ r ∈ i.reads, writerBefore code r p = some q := List.mem_filterMap

namespace Timetable

/-- How many positions before `p` are in flight when an instruction may be issued in cycle `c`. -/
def inFlight (t : Timetable) (p c : Nat) : Nat :=
  ((Finset.range p).filter fun q => c ≤ (t q).commit).card

/-- How many of them then still occupy a station of the unit. -/
def occupied (t : Timetable) (code : List Instruction) (unit : FunctionalUnit) (p c : Nat) : Nat :=
  ((Finset.range p).filter fun q =>
    code[q]?.map (·.opcode.unit) = some unit ∧ c < (t q).write).card

/-- In cycle `c` there is a slot, a register and a station for the instruction at `p`, and it is its turn. -/
structure Admits (config : Config) (code : List Instruction) (t : Timetable) (p : Nat) (i : Instruction)
    (c : Nat) : Prop where
  turn : preceding (fun q => (t q).issue) p < c
  room : t.inFlight p c < min config.robCapacity.toNat (config.highestPhys.toNat + 1)
  station : t.occupied code i.opcode.unit p c < config.stations i.opcode.unit

/-- The entry of a position follows from those before it. -/
structure Obeys (config : Config) (code : List Instruction) (t : Timetable) (p : Nat) (i : Instruction) :
    Prop where
  issue : IsLeast {c | t.Admits config code p i c} (t p).issue
  execute : (t p).execute =
    (producers code p i).foldr (fun q c => max (t q).write c) ((t p).issue + 1)
  write : (t p).write = (t p).execute + i.opcode.latency
  executeDone : (t p).executeDone = (t p).write - 1
  commit : (t p).commit = max (t p).write (preceding (fun q => (t q).commit) p) + 1

def Solves (config : Config) (code : List Instruction) (t : Timetable) : Prop :=
  ∀ p i, code[p]? = some i → t.Obeys config code p i

/-- The cycles in which the positions below `n` wait to be issued or, in their stations, for operands. -/
def stalls (t : Timetable) (n : Nat) : Nat :=
  ∑ p ∈ Finset.range n,
    ((t p).issue - preceding (fun q => (t q).issue) p - 1 + ((t p).execute - (t p).issue - 1))

/-! ### The order of the stages -/

section Order

variable {config : Config} {code : List Instruction} {t : Timetable} {p q c : Nat} {i : Instruction}

theorem foldr_max_le_iff (xs : List Nat) (first : Nat) :
    xs.foldr (fun q c => max (t q).write c) first ≤ c ↔ first ≤ c ∧ ∀ q ∈ xs, (t q).write ≤ c := by
  induction xs with
  | nil => simp
  | cons x rest ih =>
    rw [List.foldr_cons, Nat.max_le, ih, List.forall_mem_cons]
    exact and_left_comm

namespace Obeys

/-- Execution has begun once the instruction was issued and all of its producers have written. -/
theorem execute_le_iff (h : t.Obeys config code p i) :
    (t p).execute ≤ c ↔ (t p).issue < c ∧ ∀ q ∈ producers code p i, (t q).write ≤ c := by
  rw [h.execute, foldr_max_le_iff]
  rfl

theorem preceding_lt_issue (h : t.Obeys config code p i) : preceding (fun q => (t q).issue) p < (t p).issue :=
  h.issue.1.turn

theorem issue_lt_execute (h : t.Obeys config code p i) : (t p).issue < (t p).execute :=
  (h.execute_le_iff.1 (Nat.le_refl _)).1

theorem execute_lt_write (h : t.Obeys config code p i) : (t p).execute < (t p).write := by
  have hlatency := i.opcode.latency_ne_zero
  have hwrite := h.write
  omega

theorem write_eq (h : t.Obeys config code p i) : (t p).write = (t p).executeDone + 1 := by
  have hlt := h.execute_lt_write
  have hdone := h.executeDone
  omega

theorem write_lt_commit (h : t.Obeys config code p i) : (t p).write < (t p).commit := by
  have hcommit := h.commit
  omega

theorem execute_lt_commit (h : t.Obeys config code p i) : (t p).execute < (t p).commit :=
  Nat.lt_trans h.execute_lt_write h.write_lt_commit

theorem preceding_lt_commit (h : t.Obeys config code p i) :
    preceding (fun q => (t q).commit) p < (t p).commit := by
  have hcommit := h.commit
  omega

end Obeys

/-- What grows from each position to the next grows along the program. -/
theorem lt_of_preceding_lt {f : Nat → Nat} {n : Nat} (h : ∀ p < n, preceding f p < f p) (hpq : p < q)
    (hq : q < n) : f p < f q := by
  induction q, hpq using Nat.le_induction with
  | base => exact h (p + 1) hq
  | succ q _ ih => exact Nat.lt_trans (ih (Nat.lt_of_succ_lt hq)) (h (q + 1) hq)

namespace Solves

theorem obeys (h : t.Solves config code) (hp : p < code.length) : ∃ i, t.Obeys config code p i :=
  ⟨code[p], h p code[p] (List.getElem?_eq_getElem hp)⟩

theorem issue_lt_issue (h : t.Solves config code) (hpq : p < q) (hq : q < code.length) :
    (t p).issue < (t q).issue :=
  lt_of_preceding_lt (f := fun q => (t q).issue) (fun _ hp => (h.obeys hp).choose_spec.preceding_lt_issue) hpq hq

theorem commit_lt_commit (h : t.Solves config code) (hpq : p < q) (hq : q < code.length) :
    (t p).commit < (t q).commit :=
  lt_of_preceding_lt (f := fun q => (t q).commit) (fun _ hp => (h.obeys hp).choose_spec.preceding_lt_commit) hpq hq

end Solves

end Order

/-! ### The one solution -/

section Existence

variable {config : Config} {code : List Instruction} {t t' : Timetable} {p c : Nat} {i : Instruction}

theorem preceding_congr {f g : Nat → Nat} (h : ∀ q < p, f q = g q) : preceding f p = preceding g p := by
  cases p with
  | zero => rfl
  | succ p => exact h p (Nat.lt_succ_self p)

theorem inFlight_congr (h : ∀ q < p, t q = t' q) : t.inFlight p c = t'.inFlight p c := by
  unfold inFlight
  congr 1
  exact Finset.filter_congr fun q hq => by rw [h q (Finset.mem_range.1 hq)]

theorem occupied_congr {unit : FunctionalUnit} (h : ∀ q < p, t q = t' q) :
    t.occupied code unit p c = t'.occupied code unit p c := by
  unfold occupied
  congr 1
  exact Finset.filter_congr fun q hq => by rw [h q (Finset.mem_range.1 hq)]

theorem Admits.congr (h : t.Admits config code p i c) (heq : ∀ q < p, t q = t' q) :
    t'.Admits config code p i c where
  turn := by
    rw [preceding_congr fun q hq => congrArg Entry.issue (heq q hq).symm]
    exact h.turn
  room := inFlight_congr heq ▸ h.room
  station := occupied_congr heq ▸ h.station

theorem setOf_admits_congr (heq : ∀ q < p, t q = t' q) :
    {c | t.Admits config code p i c} = {c | t'.Admits config code p i c} :=
  Set.ext fun _ => ⟨fun h => h.congr heq, fun h => h.congr fun q hq => (heq q hq).symm⟩

/-- The entry of a position depends on nothing but the entries before it. -/
theorem Obeys.congr (h : t.Obeys config code p i) (heq : ∀ q ≤ p, t q = t' q) : t'.Obeys config code p i := by
  have hlt : ∀ q < p, t q = t' q := fun q hq => heq q (Nat.le_of_lt hq)
  have hself := heq p (Nat.le_refl p)
  refine ⟨?_, ?_, ?_, ?_, ?_⟩
  · rw [← hself, ← setOf_admits_congr hlt]
    exact h.issue
  · rw [← hself, h.execute]
    refine List.foldr_ext _ _ _ fun q hq c => ?_
    obtain ⟨r, -, hr⟩ := mem_producers.1 hq
    rw [hlt q (lt_of_writerBefore hr)]
  · rw [← hself]
    exact h.write
  · rw [← hself]
    exact h.executeDone
  · rw [← hself, ← preceding_congr fun q hq => congrArg Entry.commit (hlt q hq)]
    exact h.commit

/-- When all the positions before have committed, nothing is in the way. -/
theorem exists_admits (hc : config.Admitted) (hi : 1 ≤ config.stations i.opcode.unit) (t : Timetable)
    (p : Nat) : ∃ c, t.Admits config code p i c := by
  let last := (Finset.range p).sup fun q => max (t q).commit (t q).write
  have hlast : ∀ q < p, (t q).commit ≤ last ∧ (t q).write ≤ last := fun q hq =>
    Nat.max_le.1 (Finset.le_sup (f := fun q => max (t q).commit (t q).write) (Finset.mem_range.2 hq))
  have hcapacity := hc.capacity_pos
  let c := last + preceding (fun q => (t q).issue) p + 1
  refine ⟨c, show preceding (fun q => (t q).issue) p < c by omega, ?_, ?_⟩
  · have hempty : t.inFlight p c = 0 := by
      rw [inFlight, Finset.card_eq_zero, Finset.filter_eq_empty_iff]
      intro q hq
      have hle := hlast q (Finset.mem_range.1 hq)
      show ¬c ≤ (t q).commit
      omega
    omega
  · have hempty : t.occupied code i.opcode.unit p c = 0 := by
      rw [occupied, Finset.card_eq_zero, Finset.filter_eq_empty_iff]
      rintro q hq ⟨-, hlt⟩
      have hle := hlast q (Finset.mem_range.1 hq)
      omega
    omega

/-- The entries before a position give it one. -/
theorem exists_entry (hc : config.Admitted) (hi : 1 ≤ config.stations i.opcode.unit) (t : Timetable)
    (p : Nat) : ∃ e, Obeys config code (Function.update t p e) p i := by
  obtain ⟨issue, hissue⟩ : ∃ c, IsLeast {c | t.Admits config code p i c} c := by
    classical
    exact ⟨_, Nat.isLeast_find (exists_admits hc hi t p)⟩
  let execute := (producers code p i).foldr (fun q c => max (t q).write c) (issue + 1)
  let write := execute + i.opcode.latency
  let e : Entry := ⟨issue, execute, write - 1, write, max write (preceding (fun q => (t q).commit) p) + 1⟩
  have heq : ∀ q < p, t q = Function.update t p e q := fun q hq =>
    (Function.update_of_ne (Nat.ne_of_lt hq) e t).symm
  refine ⟨e, ?_, ?_, ?_, ?_, ?_⟩
  · rw [Function.update_self, ← setOf_admits_congr heq]
    exact hissue
  · rw [Function.update_self]
    refine List.foldr_ext _ _ _ fun q hq c => ?_
    obtain ⟨r, -, hr⟩ := mem_producers.1 hq
    rw [heq q (lt_of_writerBefore hr)]
  · rw [Function.update_self]
  · rw [Function.update_self]
  · rw [Function.update_self, ← preceding_congr fun q hq => congrArg Entry.commit (heq q hq)]

theorem exists_solves (hc : config.Admitted) (hunits : ∀ i ∈ code, 1 ≤ config.stations i.opcode.unit) :
    ∃ t, Solves config code t := by
  -- the entries are filled in one after the other
  have hprefix : ∀ n, ∃ t : Timetable, ∀ p < n, ∀ i, code[p]? = some i → t.Obeys config code p i := by
    intro n
    induction n with
    | zero => exact ⟨fun _ => ⟨0, 0, 0, 0, 0⟩, by simp⟩
    | succ n ih =>
      obtain ⟨t, ht⟩ := ih
      cases hn : code[n]? with
      | none =>
        refine ⟨t, fun p hp i hi => ht p ?_ i hi⟩
        rcases Nat.lt_succ_iff_lt_or_eq.1 hp with hlt | rfl
        · exact hlt
        · simp [hn] at hi
      | some i =>
        obtain ⟨e, he⟩ : ∃ e, Obeys config code (Function.update t n e) n i :=
          exists_entry hc (hunits i (List.mem_of_getElem? hn)) t n
        refine ⟨Function.update t n e, fun p hp j hj => ?_⟩
        rcases Nat.lt_succ_iff_lt_or_eq.1 hp with hlt | rfl
        · refine (ht p hlt j hj).congr fun q hq => ?_
          exact (Function.update_of_ne (Nat.ne_of_lt (Nat.lt_of_le_of_lt hq hlt)) e t).symm
        · obtain rfl := Option.some.inj (hn.symm.trans hj)
          exact he
  obtain ⟨t, ht⟩ := hprefix code.length
  exact ⟨t, fun p i hi => ht p (List.getElem?_eq_some_iff.1 hi).1 i hi⟩

end Existence

/-! ### The stalls so far -/

section Stalls

variable {t : Timetable} {n c : Nat}

/-- Of the stalls those up to the end of cycle `c`. -/
def stallsUntil (t : Timetable) (n c : Nat) : Nat :=
  ∑ p ∈ Finset.range n, (min (t p).issue (c + 1) - preceding (fun q => (t q).issue) p - 1 +
    (min (t p).execute (c + 1) - (t p).issue - 1))

theorem stallsUntil_zero (t : Timetable) (n : Nat) : t.stallsUntil n 0 = 0 := by
  refine Finset.sum_eq_zero fun p _ => ?_
  omega

/-- In one cycle the instruction whose turn it is may stall, and each one that waits in its station does. -/
theorem stallsUntil_succ (t : Timetable) (n c : Nat) : t.stallsUntil n (c + 1) = t.stallsUntil n c +
    ((Finset.range n).filter fun p => (t p).issue < c + 1 ∧ c + 1 < (t p).execute).card +
    ((Finset.range n).filter fun p =>
      preceding (fun q => (t q).issue) p < c + 1 ∧ c + 1 < (t p).issue).card := by
  -- position by position: each summand grows by at most one, and never both of its parts
  rw [Finset.card_filter, Finset.card_filter, stallsUntil, stallsUntil, ← Finset.sum_add_distrib,
    ← Finset.sum_add_distrib]
  refine Finset.sum_congr rfl fun p _ => ?_
  split <;> split <;> omega

theorem stallsUntil_eq_stalls (h : ∀ p < n, (t p).issue ≤ c ∧ (t p).execute ≤ c) :
    t.stallsUntil n c = t.stalls n := by
  refine Finset.sum_congr rfl fun p hp => ?_
  obtain ⟨hi, hx⟩ := h p (Finset.mem_range.1 hp)
  rw [Nat.min_eq_left (Nat.le_succ_of_le hi), Nat.min_eq_left (Nat.le_succ_of_le hx)]

end Stalls

end Timetable

end OutOfOrder
