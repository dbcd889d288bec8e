import Mathlib.Data.List.Nodup
import OutOfOrder.Proofs.Window

/-!
The reorder buffer as a queue, whatever its capacity and whatever is written to its slots beside the busy flags. What
is claimed, what is freed, the head and the room are those of a queue throughout. The walk from the head counts in
sixteen bits, though: in a large buffer it comes to a sum that does not fit, and lists a slot twice.
-/

set_option autoImplicit false

namespace OutOfOrder

namespace ReorderBuffer

/-- What becomes of a new buffer when slots are claimed and freed, with the numbers of those claimed and of those
freed, in order. In between anything may be written but the busy flags. -/
inductive Served (capacity : Nat) : List Nat → List Nat → ReorderBuffer → Prop
  | start {b : ReorderBuffer} (new : ofCapacity capacity = .ok b) : Served capacity [] [] b
  | claim {claimed freed : List Nat} {b b' : ReorderBuffer} {i : Nat} (earlier : Served capacity claimed freed b)
      (allocated : b.allocate = .ok (i, b')) : Served capacity (claimed ++ [i]) freed b'
  | free {claimed freed : List Nat} {b b' : ReorderBuffer} {i : Nat} (earlier : Served capacity claimed freed b)
      (retired : b.retire = .ok (i, b')) : Served capacity claimed (freed ++ [i]) b'
  | write {claimed freed : List Nat} {b : ReorderBuffer} (earlier : Served capacity claimed freed b) (i : Nat)
      (f : Slot → Slot) (busy : ∀ s, (f s).busy = s.busy) : Served capacity claimed freed (b.modify i f)

/-- The numbers of the first `n` places. -/
def queue (b : ReorderBuffer) (n : Nat) : List Nat := (List.range n).map b.place

def Carries (b : ReorderBuffer) (p : Slot → Prop) (i : Nat) : Prop := ∃ s, b.slots[i]? = some s ∧ p s

/-- The first of the slots that carries what is asked for, or nothing if none does. -/
def Oldest (b : ReorderBuffer) (queue : List Nat) (p : Slot → Prop) : Option Nat → Prop
  | some i => ∃ older younger, queue = older ++ i :: younger ∧ b.Carries p i ∧ ∀ j ∈ older, ¬ b.Carries p j
  | none => ∀ j ∈ queue, ¬ b.Carries p j

/-- Claims and releases are those of a bounded queue. -/
structure Queues (b : ReorderBuffer) (queue : List Nat) : Prop where
  nodup : queue.Nodup
  busy : ∀ i, b.isBusy i = true ↔ i ∈ queue
  length_le : queue.length ≤ b.capacity
  hasRoom : b.hasRoom = true ↔ queue.length < b.capacity
  isEmpty : b.isEmpty = true ↔ queue = []
  head : b.head = queue.headD b.tail
  allocate : b.hasRoom = true → ∃ b', b.allocate = .ok (b.tail, b') ∧ b.tail ∉ queue
  retire : ∀ i rest, queue = i :: rest → ∃ b', b.retire = .ok (i, b')

/-- What walks through the buffer finds the queue, from its oldest element on. -/
structure Lists (b : ReorderBuffer) (queue : List Nat) : Prop where
  inFlight : b.inFlight = queue
  size : b.size = queue.length
  slotFor : ∀ tag, b.Oldest queue (fun s => s.tag = some tag) (b.slotFor tag)
  slotOf : ∀ id, b.Oldest queue (fun s => s.occupant = some id) (b.slotOf id)

theorem any_eq_true_iff (b : ReorderBuffer) (p : Slot → Bool) (i : Nat) :
    b.slots[i]?.any p = true ↔ b.Carries (fun s => p s = true) i := by
  simp [Carries, Option.any_eq_true]

theorem oldest_find {b : ReorderBuffer} {queue : List Nat} (h : b.inFlight = queue) (p : Slot → Bool) :
    b.Oldest queue (fun s => p s = true) (b.find p) := by
  rw [find, h]
  cases hfound : queue.find? fun i => b.slots[i]?.any p with
  | some i =>
    obtain ⟨hi, older, younger, hsplit, holder⟩ := List.find?_eq_some_iff_append.1 hfound
    refine ⟨older, younger, hsplit, (b.any_eq_true_iff p i).1 hi, fun j hj hcarries => ?_⟩
    simpa [(b.any_eq_true_iff p j).2 hcarries] using holder j hj
  | none =>
    intro j hj hcarries
    exact List.find?_eq_none.1 hfound j hj ((b.any_eq_true_iff p j).2 hcarries)

namespace Holds

variable {b b' : ReorderBuffer} {n i : Nat}

theorem mem_queue_iff (h : b.Holds n) : i ∈ b.queue n ↔ b.isBusy i = true := by
  have hle := h.le
  rw [queue, List.mem_map]
  constructor
  · rintro ⟨k, hk, rfl⟩
    rw [List.mem_range] at hk
    rw [h.isBusy_place (by omega)]
    exact decide_eq_true hk
  · intro hbusy
    have hi : i < b.slots.size := by
      by_contra hge
      rw [isBusy, Array.getElem?_eq_none (by omega)] at hbusy
      simp at hbusy
    obtain ⟨k, hk, rfl⟩ := exists_place hi
    rw [h.isBusy_place hk, decide_eq_true_eq] at hbusy
    exact ⟨k, List.mem_range.2 hbusy, rfl⟩

theorem nodup_queue (h : b.Holds n) : (b.queue n).Nodup := by
  have hle := h.le
  refine List.Nodup.map_on (fun j hj k hk heq => ?_) List.nodup_range
  rw [List.mem_range] at hj hk
  exact (place_inj (by omega) (by omega)).1 heq

theorem queue_allocate (h : b.Holds n) (ha : b.allocate = .ok (i, b')) : b'.queue (n + 1) = b.queue n ++ [i] := by
  obtain ⟨-, -, -, rfl, hplace, -⟩ := h.allocate ha
  rw [queue, queue, List.range_succ, List.map_append, List.map_singleton, hplace]
  exact congrArg (· ++ [b.place n]) (List.map_congr_left fun k _ => hplace k)

theorem queue_retire (h : b.Holds n) (hr : b.retire = .ok (i, b')) : b.queue n = i :: b'.queue (n - 1) := by
  obtain ⟨hpos, -, -, rfl, hplace, -⟩ := h.retire hr
  obtain ⟨n, rfl⟩ := Nat.exists_eq_add_of_lt hpos
  rw [queue, queue, Nat.zero_add, Nat.add_sub_cancel, List.range_succ_eq_map, List.map_cons, List.map_map]
  exact congrArg (b.place 0 :: ·) (List.map_congr_left fun k _ => (hplace k).symm)

theorem exists_allocate (h : b.Holds n) (hn : n < b.capacity) : ∃ b', b.allocate = .ok (b.tail, b') := by
  rw [ReorderBuffer.allocate, if_pos (by rw [h.hasRoom_eq]; exact decide_eq_true hn)]
  exact ⟨_, rfl⟩

theorem exists_retire (h : b.Holds n) (hn : 0 < n) : ∃ b', b.retire = .ok (b.head, b') := by
  rw [ReorderBuffer.retire, if_pos (by rw [h.isBusy_head]; exact decide_eq_true hn)]
  exact ⟨_, rfl⟩

theorem queues (h : b.Holds n) : b.Queues (b.queue n) := by
  have hlength : (b.queue n).length = n := by simp [queue]
  have hroom : b.hasRoom = true ↔ n < b.capacity := by rw [h.hasRoom_eq, decide_eq_true_eq]
  have hhead : ∀ i rest, b.queue n = i :: rest → 0 < n ∧ i = b.head := by
    intro i rest hq
    cases n with
    | zero => simp [queue] at hq
    | succ n =>
      rw [queue, List.range_succ_eq_map, List.map_cons, List.cons.injEq, place_zero] at hq
      exact ⟨Nat.succ_pos n, hq.1.symm⟩
  exact {
    nodup := h.nodup_queue
    busy := fun i => h.mem_queue_iff.symm
    length_le := hlength.symm ▸ h.le
    hasRoom := by rw [hlength, hroom]
    isEmpty := by rw [h.isEmpty_eq, decide_eq_true_eq, ← List.length_eq_zero_iff, hlength]
    head := by
      cases hq : b.queue n with
      | nil =>
        rw [hq, List.length_nil] at hlength
        rw [List.headD_nil, h.tail_eq, ← hlength, place_zero]
      | cons i rest => exact (hhead i rest hq).2.symm
    allocate := fun hr => by
      obtain ⟨b', ha⟩ := h.exists_allocate (hroom.1 hr)
      refine ⟨b', ha, fun hmem => ?_⟩
      rw [h.mem_queue_iff] at hmem
      simp [ReorderBuffer.hasRoom, hmem] at hr
    retire := fun i rest hq => by
      obtain ⟨hpos, rfl⟩ := hhead i rest hq
      exact h.exists_retire hpos }

/-- No number on the way from the head to the first free slot is too large for sixteen bits. -/
theorem lists (h : b.Holds n) (hw : b.head + min n (b.capacity - 1) < 65536) : b.Lists (b.queue n) := by
  have hin : b.inFlight = b.queue n := h.inFlight_eq fun k hk hkn => ring_eq_place (by omega)
  refine ⟨hin, by rw [size, hin], fun tag => ?_, fun id => ?_⟩
  · simpa [slotFor] using oldest_find hin (·.tag == some tag)
  · simpa [slotOf] using oldest_find hin (·.occupant == some id)

/-- What is busy up to some place, the walk from the head lists. -/
theorem take_inFlight {m : Nat} (hm : m ≤ b.capacity) (hbusy : ∀ k < m, b.isBusy (b.ring k) = true) :
    (List.range m).map b.ring <+: b.inFlight := by
  rw [inFlight, busyFrom_eq_takeWhile, ← List.range_eq_range', show b.capacity = m + (b.capacity - m) by omega,
    List.range_add, List.map_append, List.takeWhile_append_of_pos]
  · exact List.prefix_append _ _
  · intro i hi
    obtain ⟨k, hk, rfl⟩ := List.mem_map.1 hi
    exact hbusy k (List.mem_range.1 hk)

/-- The first sum that does not fit leads back to slot zero, which was listed before. -/
theorem not_nodup_inFlight (h : b.Holds n) (hc : b.capacity ≤ 65535)
    (hw : 65536 ≤ b.head + min n (b.capacity - 1)) : ¬ b.inFlight.Nodup := by
  have hh : b.head < b.capacity := b.head_lt
  have hle := h.le
  have hfirst : b.ring (b.capacity - b.head) = 0 := by
    rw [ring_eq_place (by omega), place, Nat.add_sub_cancel' (Nat.le_of_lt hh), Nat.mod_self]
  have hsecond : b.ring (65536 - b.head) = 0 := by
    rw [ring, Nat.add_sub_cancel' (by omega), UInt16.size, Nat.mod_self, Nat.zero_mod]
  have hfits : ∀ k < 65536 - b.head, b.isBusy (b.ring k) = true := by
    intro k hk
    rw [ring_eq_place (by omega), h.isBusy_place (by omega)]
    exact decide_eq_true (by omega)
  have hbusy : ∀ k < 65536 - b.head + 1, b.isBusy (b.ring k) = true := by
    intro k hk
    rcases Nat.lt_succ_iff_lt_or_eq.1 hk with hk | rfl
    · exact hfits k hk
    · rw [hsecond, ← hfirst]
      exact hfits _ (by omega)
  intro hnodup
  have hlisted := hnodup.sublist (take_inFlight (by omega) hbusy).sublist
  have heq := List.inj_on_of_nodup_map hlisted (List.mem_range.2 (by omega : b.capacity - b.head < _))
    (List.mem_range.2 (Nat.lt_succ_self (65536 - b.head))) (hfirst.trans hsecond.symm)
  omega

end Holds

theorem Served.exists_holds {capacity : Nat} {claimed freed : List Nat} {b : ReorderBuffer}
    (h : Served capacity claimed freed b) :
    ∃ n, b.Holds n ∧ b.capacity = capacity ∧ claimed = freed ++ b.queue n := by
  induction h with
  | start new =>
    obtain ⟨hholds, hcapacity⟩ := Holds.start new
    exact ⟨0, hholds, hcapacity, rfl⟩
  | claim _ allocated ih =>
    obtain ⟨n, hholds, hcapacity, rfl⟩ := ih
    obtain ⟨-, hsame, hholds', -⟩ := hholds.allocate allocated
    exact ⟨n + 1, hholds', hsame.trans hcapacity, by rw [hholds.queue_allocate allocated, List.append_assoc]⟩
  | free _ retired ih =>
    obtain ⟨n, hholds, hcapacity, rfl⟩ := ih
    obtain ⟨-, hsame, hholds', -⟩ := hholds.retire retired
    exact ⟨n - 1, hholds', hsame.trans hcapacity, by rw [hholds.queue_retire retired, List.append_assoc]; rfl⟩
  | @write claimed freed b _ i f busy ih =>
    obtain ⟨n, hholds, hcapacity, rfl⟩ := ih
    have hqueue : (b.modify i f).queue n = b.queue n := List.map_congr_left fun k _ => b.place_modify i k f
    exact ⟨n, hholds.modify i busy, (b.capacity_modify i f).trans hcapacity, by rw [hqueue]⟩

/-- One slot after the other is claimed and freed, and the head goes round with them. -/
theorem Served.exists_rounds {capacity : Nat} (hc : 0 < capacity) (k : Nat) : ∃ slots b,
    Served capacity slots slots b ∧ b.Holds 0 ∧ b.capacity = capacity ∧ b.head = k % capacity := by
  induction k with
  | zero =>
    obtain ⟨b, hnew⟩ : ∃ b, ofCapacity capacity = .ok b := by simp [ofCapacity, hc]
    obtain ⟨hholds, hcap⟩ := Holds.start hnew
    exact ⟨[], b, .start hnew, hholds, hcap, by rw [(eq_of_ofCapacity hnew).2.1, Nat.zero_mod]⟩
  | succ k ih =>
    obtain ⟨slots, b, hserved, hholds, hcap, hhead⟩ := ih
    obtain ⟨b₁, hclaim⟩ := hholds.exists_allocate (hcap.symm ▸ hc)
    obtain ⟨-, hcap₁, hholds₁, htail, hplace₁, -⟩ := hholds.allocate hclaim
    obtain ⟨b₂, hfree⟩ := hholds₁.exists_retire Nat.one_pos
    obtain ⟨-, hcap₂, hholds₂, hhead₁, hplace₂, -⟩ := hholds₁.retire hfree
    have hsame : b₁.head = b.tail := by rw [hhead₁, hplace₁, htail]
    refine ⟨slots ++ [b.tail], b₂, ?_, hholds₂, by rw [hcap₂, hcap₁, hcap], ?_⟩
    · exact (hserved.claim hclaim).free (hsame ▸ hfree)
    · rw [← b₂.place_zero, hplace₂, hplace₁, place, hcap, hhead, Nat.mod_add_mod]

end ReorderBuffer

open ReorderBuffer

/-- What has been claimed and not been freed is a queue, without repetition, and so it is with the room, the head,
the claims and the releases, in a buffer of any capacity. The walks from the head list this queue as long as its
numbers fit in sixteen bits, which they always do up to a capacity of 32768; else they list a slot twice. -/
theorem buffer_is_queue {capacity : Nat} (hc : capacity ≤ 65535) {claimed freed : List Nat} {b : ReorderBuffer}
    (h : Served capacity claimed freed b) : ∃ queue, claimed = freed ++ queue ∧ b.capacity = capacity ∧
      b.Queues queue ∧ (b.head + min queue.length (capacity - 1) < 65536 → b.Lists queue) ∧
      (65536 ≤ b.head + min queue.length (capacity - 1) → ¬ b.inFlight.Nodup) ∧
      (capacity ≤ 32768 → b.Lists queue) := by
  obtain ⟨n, hholds, rfl, hclaimed⟩ := h.exists_holds
  have hlength : (b.queue n).length = n := by simp [queue]
  have hh : b.head < b.capacity := b.head_lt
  refine ⟨b.queue n, hclaimed, rfl, hholds.queues, ?_, ?_, fun hsmall => hholds.lists (by omega)⟩
  · rw [hlength]
    exact hholds.lists
  · rw [hlength]
    exact hholds.not_nodup_inFlight hc

/-- Three slots, all of them in use: the second has become the oldest, and the first is in use again behind the
third. -/
theorem buffer_is_queue_three : ∃ b, Served 3 [0, 1, 2, 0] [0] b ∧ b.Queues [1, 2, 0] ∧ b.Lists [1, 2, 0] := by
  have hserved : ∃ b, Served 3 [0, 1, 2, 0] [0] b :=
    ⟨_, ((((((Served.start rfl).claim rfl).claim rfl).claim rfl).free rfl).write 1
      (fun s => { s with tag := some ⟨7⟩ }) fun _ => rfl).claim rfl⟩
  obtain ⟨b, hserved⟩ := hserved
  obtain ⟨queue, hclaimed, -, hqueues, -, -, hlists⟩ := buffer_is_queue (by decide) hserved
  obtain rfl : [1, 2, 0] = queue := (List.cons.inj hclaimed).2
  exact ⟨b, hserved, hqueues, hlists (by decide)⟩

/-- In the largest buffer the head has come to the last slot, and two slots are in use. The second sum is one less
than sixteen bits hold, and the remainder takes it to slot zero; the third wraps to slot zero as well. -/
theorem walk_repeats_slot : ∃ claimed freed b, Served 65535 claimed freed b ∧ claimed = freed ++ [65534, 0] ∧
    b.inFlight = [65534, 0, 0] := by
  obtain ⟨slots, b, hserved, hholds, hcap, hhead⟩ := Served.exists_rounds (by decide : 0 < 65535) 65534
  obtain ⟨b₁, hfirst⟩ := hholds.exists_allocate (by omega)
  obtain ⟨-, hcap₁, hholds₁, htail, hplace₁, -⟩ := hholds.allocate hfirst
  obtain ⟨b₂, hsecond⟩ := hholds₁.exists_allocate (by omega)
  obtain ⟨-, hcap₂, hholds₂, htail₁, hplace₂, -⟩ := hholds₁.allocate hsecond
  have hcap₂ : b₂.capacity = 65535 := by rw [hcap₂, hcap₁, hcap]
  have hhead₂ : b₂.head = 65534 := by
    rw [← b₂.place_zero, hplace₂, hplace₁, place_zero, hhead]
  have hlast : b.tail = 65534 := by rw [htail, place_zero, hhead]
  have hzero : b₁.tail = 0 := by rw [htail₁, hplace₁, place, hhead, hcap]
  have hring : ∀ k, b₂.ring k = (65534 + k) % 65536 % 65535 := fun k => by rw [ring, hhead₂, hcap₂, UInt16.size]
  have hbusy : ∀ k < 65535, b₂.isBusy ((65534 + k) % 65535) = decide (k < 2) := fun k hk => by
    have hplace := hholds₂.isBusy_place (k := k) (by omega)
    rwa [place, hhead₂, hcap₂] at hplace
  refine ⟨slots ++ [b.tail] ++ [b₁.tail], slots, b₂, (hserved.claim hfirst).claim hsecond, ?_, ?_⟩
  · rw [hlast, hzero, List.append_assoc]
    rfl
  · obtain ⟨n, hn⟩ : ∃ n, b₂.capacity = n + 4 := ⟨65531, hcap₂⟩
    have hsums : b₂.ring 0 = 65534 ∧ b₂.ring 1 = 0 ∧ b₂.ring 2 = 0 ∧ b₂.ring 3 = 1 := by simp only [hring]; decide
    have hflags : b₂.isBusy 65534 = true ∧ b₂.isBusy 0 = true ∧ b₂.isBusy 1 = false :=
      ⟨hbusy 0 (by decide), hbusy 1 (by decide), hbusy 2 (by decide)⟩
    simp [inFlight, hn, busyFrom, hsums, hflags]

end OutOfOrder
