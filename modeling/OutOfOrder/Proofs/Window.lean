import OutOfOrder.ReorderBuffer

/-!
The reorder buffer as a queue. Its window lists the slots in flight, oldest first; claiming a slot adds
one at the end, retiring the head removes the first, and a search through the ring is one through the list.
-/

set_option autoImplicit false

namespace OutOfOrder

/-- Changes the slot of one version and no other. -/
def Slot.revise (id : InstanceId) (g : Slot → Slot) (s : Slot) : Slot :=
  if s.occupant = some id then g s else s

namespace ReorderBuffer

/-- The slot `k` places after the head, by its number. -/
def place (b : ReorderBuffer) (k : Nat) : Nat := (b.head + k) % b.capacity

theorem place_lt (b : ReorderBuffer) (k : Nat) : b.place k < b.slots.size :=
  Nat.mod_lt _ b.capacity_pos

/-- The slot `k` places after the head. -/
def nth (b : ReorderBuffer) (k : Nat) : Slot :=
  have := b.place_lt k
  b.slots[b.place k]

def window (b : ReorderBuffer) : List Slot := b.inFlight.filterMap (b.slots[·]?)

/-- The slots in flight form one run from the head, with the tail behind it, in a ring so small that the
number of a slot never wraps. -/
structure Contiguous (b : ReorderBuffer) : Prop where
  capacity_le : b.capacity ≤ 32768
  length_le : b.window.length ≤ b.capacity
  tail_eq : b.tail = b.place b.window.length
  busy_nth : ∀ k < b.capacity, (b.nth k).busy = decide (k < b.window.length)

theorem getElem?_place (b : ReorderBuffer) (k : Nat) : b.slots[b.place k]? = some (b.nth k) :=
  Array.getElem?_eq_getElem (b.place_lt k)

theorem isBusy_place (b : ReorderBuffer) (k : Nat) : b.isBusy (b.place k) = (b.nth k).busy := by
  simp [isBusy, getElem?_place]

/-- Without the remainder: the sum itself, or what is left beyond the end of the ring. -/
theorem place_eq {b : ReorderBuffer} {k : Nat} (hk : k ≤ b.capacity) :
    b.place k = if b.head + k < b.capacity then b.head + k else b.head + k - b.capacity := by
  have hh : b.head < b.capacity := b.head_lt
  unfold place
  split
  · next h => exact Nat.mod_eq_of_lt h
  · rw [Nat.mod_eq_sub_mod (by omega)]
    exact Nat.mod_eq_of_lt (by omega)

theorem place_inj {b : ReorderBuffer} {j k : Nat} (hj : j < b.capacity) (hk : k < b.capacity) :
    b.place j = b.place k ↔ j = k := by
  have hh : b.head < b.capacity := b.head_lt
  rw [place_eq (Nat.le_of_lt hj), place_eq (Nat.le_of_lt hk)]
  split <;> split <;> omega

theorem place_zero (b : ReorderBuffer) : b.place 0 = b.head := Nat.mod_eq_of_lt b.head_lt

theorem exists_place {b : ReorderBuffer} {i : Nat} (hi : i < b.slots.size) :
    ∃ k < b.capacity, b.place k = i := by
  have hh : b.head < b.capacity := b.head_lt
  have hc : i < b.capacity := hi
  by_cases h : b.head ≤ i
  · refine ⟨i - b.head, by omega, ?_⟩
    rw [place_eq (by omega)]
    split <;> omega
  · refine ⟨i + b.capacity - b.head, by omega, ?_⟩
    rw [place_eq (by omega)]
    split <;> omega

/-- The sum fits in sixteen bits. -/
theorem ring_eq_place {b : ReorderBuffer} {k : Nat} (hw : b.head + k < 65536) : b.ring k = b.place k := by
  rw [ring, place, Nat.mod_eq_of_lt hw]

theorem place_modify (b : ReorderBuffer) (i k : Nat) (f : Slot → Slot) :
    (b.modify i f).place k = b.place k := by
  simp [place, ReorderBuffer.modify, capacity]

theorem nth_modify (b : ReorderBuffer) (i k : Nat) (f : Slot → Slot) :
    (b.modify i f).nth k = if b.place k = i then f (b.nth k) else b.nth k := by
  have hp := b.place_modify i k f
  have hm := getElem?_slots_modify b i (b.place k) f
  rw [← hp, getElem?_place, hp, getElem?_place] at hm
  simp only [eq_comm (a := b.place k)]
  split at hm
  · next hi => simpa [hi] using hm
  · next hi => simpa [hi] using hm

/-! ### Occupied places -/

/-- The busy slots are the `n` places from the head on, and the tail is behind them. -/
structure Holds (b : ReorderBuffer) (n : Nat) : Prop where
  le : n ≤ b.capacity
  tail_eq : b.tail = b.place n
  busy_nth : ∀ k < b.capacity, (b.nth k).busy = decide (k < n)

/-- Every slot of a new buffer is free. -/
theorem eq_of_ofCapacity {n : Nat} {b : ReorderBuffer} (h : ofCapacity n = .ok b) :
    b.slots = Array.replicate n .empty ∧ b.head = 0 ∧ b.tail = 0 := by
  unfold ofCapacity at h
  split at h
  · obtain rfl := Except.ok.inj h
    exact ⟨rfl, rfl, rfl⟩
  · simp at h

namespace Holds

variable {b b' : ReorderBuffer} {n i : Nat}

theorem start {capacity : Nat} (h : ofCapacity capacity = .ok b) : b.Holds 0 ∧ b.capacity = capacity := by
  obtain ⟨hslots, hhead, htail⟩ := eq_of_ofCapacity h
  refine ⟨⟨Nat.zero_le _, by rw [place_zero, hhead, htail], fun k _ => ?_⟩, by simp [ReorderBuffer.capacity, hslots]⟩
  simp [nth, hslots, Slot.empty]

theorem isBusy_place (h : b.Holds n) {k : Nat} (hk : k < b.capacity) :
    b.isBusy (b.place k) = decide (k < n) := by
  rw [b.isBusy_place, h.busy_nth k hk]

theorem isBusy_head (h : b.Holds n) : b.isBusy b.head = decide (0 < n) := by
  rw [← b.place_zero, h.isBusy_place b.capacity_pos]

/-- The search from the head ends at the first free place, if it counts that far. -/
theorem busyFrom_eq (h : b.Holds n) (hr : ∀ k < b.capacity, k ≤ n → b.ring k = b.place k) {m k : Nat}
    (hm : k + m = b.capacity) (hk : k ≤ n) : b.busyFrom m k = (List.range' k (n - k)).map b.place := by
  have hn := h.le
  induction m generalizing k with
  | zero =>
    have hz : n - k = 0 := by omega
    simp [busyFrom, hz]
  | succ m ih =>
    have hlt : k < b.capacity := by omega
    rw [busyFrom, hr k hlt hk, h.isBusy_place hlt]
    by_cases hkn : k < n
    · have hs : n - k = n - (k + 1) + 1 := by omega
      rw [ih (by omega) (by omega), hs, List.range'_succ]
      simp [hkn]
    · have hz : n - k = 0 := by omega
      simp [hkn, hz]

theorem inFlight_eq (h : b.Holds n) (hr : ∀ k < b.capacity, k ≤ n → b.ring k = b.place k) :
    b.inFlight = (List.range n).map b.place := by
  rw [inFlight, h.busyFrom_eq hr (Nat.zero_add _) (Nat.zero_le n), List.range_eq_range', Nat.sub_zero]

theorem hasRoom_eq (h : b.Holds n) : b.hasRoom = decide (n < b.capacity) := by
  have hl := h.le
  rw [hasRoom, h.tail_eq]
  by_cases hlt : n < b.capacity
  · simp [h.isBusy_place hlt, hlt]
  · -- a full ring has its tail at its head, which is busy
    have hc : n = b.capacity := by omega
    have hp := b.capacity_pos
    have h0 : b.place n = b.head := by
      rw [hc, place_eq (Nat.le_refl _)]
      split <;> omega
    rw [h0, h.isBusy_head]
    simp [hc, hp]

theorem isEmpty_eq (h : b.Holds n) : b.isEmpty = decide (n = 0) := by
  rw [Bool.eq_iff_iff, isEmpty, Array.all_eq_true', decide_eq_true_eq]
  constructor
  · intro ha
    have hb := h.busy_nth 0 b.capacity_pos
    have hf := ha (b.nth 0) (Array.getElem_mem _)
    rw [hb] at hf
    simpa using hf
  · intro hz s hs
    obtain ⟨i, hi, rfl⟩ := Array.mem_iff_getElem.1 hs
    obtain ⟨k, hk, rfl⟩ := exists_place hi
    have hb := h.busy_nth k hk
    rw [hz] at hb
    simpa [nth] using hb

theorem modify (h : b.Holds n) (i : Nat) {f : Slot → Slot} (hf : ∀ s, (f s).busy = s.busy) :
    (b.modify i f).Holds n where
  le := by
    rw [capacity_modify]
    exact h.le
  tail_eq := by
    rw [place_modify]
    exact h.tail_eq
  busy_nth k hk := by
    rw [capacity_modify] at hk
    rw [nth_modify, ← h.busy_nth k hk]
    split
    · exact hf _
    · rfl

/-- One place more, at the tail. -/
theorem allocate (h : b.Holds n) (ha : b.allocate = .ok (i, b')) : n < b.capacity ∧
    b'.capacity = b.capacity ∧ b'.Holds (n + 1) ∧ i = b.place n ∧ (∀ k, b'.place k = b.place k) ∧
    ∀ k < b.capacity, b'.nth k = if k = n then .claimed else b.nth k := by
  unfold ReorderBuffer.allocate at ha
  split at ha
  case isFalse => simp at ha
  case isTrue hr =>
    rw [h.hasRoom_eq, decide_eq_true_eq] at hr
    simp only [Except.ok.injEq, Prod.mk.injEq] at ha
    obtain ⟨rfl, rfl⟩ := ha
    let b' : ReorderBuffer :=
      { slots := b.slots.set b.tail .claimed b.tail_lt, head := b.head
        tail := (b.tail + 1) % b.capacity
        head_lt := by simpa using b.head_lt
        tail_lt := by simpa [capacity] using Nat.mod_lt _ b.capacity_pos }
    change n < b.capacity ∧ b'.capacity = b.capacity ∧ b'.Holds (n + 1) ∧ b.tail = b.place n ∧
      (∀ k, b'.place k = b.place k) ∧ ∀ k < b.capacity, b'.nth k = if k = n then .claimed else b.nth k
    have hcap : b'.capacity = b.capacity := by simp [b', capacity]
    have hplace : ∀ k, b'.place k = b.place k := fun k => by simp [place, hcap, b']
    have hnth : ∀ k < b.capacity, b'.nth k = if k = n then .claimed else b.nth k := by
      intro k hk
      have ht : b.tail = b.place k ↔ k = n := by
        rw [h.tail_eq, place_inj hr hk, eq_comm]
      simp only [nth, hplace, b', Array.getElem_set, ht]
    refine ⟨hr, hcap, ⟨by omega, ?_, fun k hk => ?_⟩, h.tail_eq, hplace, hnth⟩
    · rw [hplace]
      show (b.tail + 1) % b.capacity = _
      rw [h.tail_eq, place, place, Nat.mod_add_mod, Nat.add_assoc]
    · rw [hnth k (by omega)]
      split
      · next he => simp [he, Slot.claimed]
      · next hne =>
        rw [h.busy_nth k (by omega), decide_eq_decide]
        omega

/-- The first place is given up, and the others move up by one. -/
theorem retire (h : b.Holds n) (hr : b.retire = .ok (i, b')) : 0 < n ∧
    b'.capacity = b.capacity ∧ b'.Holds (n - 1) ∧ i = b.place 0 ∧ (∀ k, b'.place k = b.place (k + 1)) ∧
    ∀ k, k + 1 < b.capacity → b'.nth k = b.nth (k + 1) := by
  unfold ReorderBuffer.retire at hr
  split at hr
  case isFalse => simp at hr
  case isTrue hbusy =>
    rw [h.isBusy_head, decide_eq_true_eq] at hbusy
    simp only [Except.ok.injEq, Prod.mk.injEq] at hr
    obtain ⟨rfl, rfl⟩ := hr
    let b' : ReorderBuffer :=
      { slots := b.slots.modify b.head Slot.released, head := (b.head + 1) % b.capacity
        tail := b.tail
        head_lt := by simpa [capacity] using Nat.mod_lt _ b.capacity_pos
        tail_lt := by simpa using b.tail_lt }
    change 0 < n ∧ b'.capacity = b.capacity ∧ b'.Holds (n - 1) ∧ b.head = b.place 0 ∧
      (∀ k, b'.place k = b.place (k + 1)) ∧ ∀ k, k + 1 < b.capacity → b'.nth k = b.nth (k + 1)
    have hp := b.capacity_pos
    have hlen := h.le
    have hcap : b'.capacity = b.capacity := by simp [b', capacity]
    have hplace : ∀ k, b'.place k = b.place (k + 1) := fun k => by
      simp only [place, hcap]
      show ((b.head + 1) % b.capacity + k) % b.capacity = _
      rw [Nat.mod_add_mod]
      congr 1
      omega
    have hwrap : b.place b.capacity = b.place 0 := by simp [place]
    have hnth : ∀ k, b'.nth k =
        if b.place (k + 1) = b.head then (b.nth (k + 1)).released else b.nth (k + 1) := by
      intro k
      simp only [nth, hplace, b', Array.getElem_modify, eq_comm]
    have hlast : ∀ k, k + 1 < b.capacity → b'.nth k = b.nth (k + 1) := by
      intro k hk
      have hne : b.place (k + 1) ≠ b.head := by
        rw [← b.place_zero, Ne, place_inj hk hp]
        omega
      rw [hnth, if_neg hne]
    refine ⟨hbusy, hcap, ⟨by omega, ?_, fun k hk => ?_⟩, b.place_zero.symm, hplace, hlast⟩
    · rw [hplace, Nat.sub_add_cancel hbusy]
      exact h.tail_eq
    · by_cases hlt : k + 1 < b.capacity
      · rw [hlast k hlt, h.busy_nth (k + 1) hlt, decide_eq_decide]
        omega
      · -- the last place of the new ring is the head that was given up
        have hk1 : k + 1 = b.capacity := by omega
        rw [hnth, hk1, hwrap, b.place_zero, if_pos rfl, Slot.released]
        have hge : ¬k < n - 1 := by omega
        simp [hge]

/-- In a small ring no sum wraps, and the window lists the places. -/
theorem contiguous (h : b.Holds n) (hc : b.capacity ≤ 32768) :
    b.Contiguous ∧ b.window = (List.range n).map b.nth := by
  have hh : b.head < b.capacity := b.head_lt
  have hw : b.window = (List.range n).map b.nth := by
    rw [window, h.inFlight_eq fun k hk _ => ring_eq_place (by omega), List.filterMap_map, ← List.filterMap_eq_map]
    congr 1
    funext k
    exact b.getElem?_place k
  have hl : b.window.length = n := by simp [hw]
  have hle := h.le
  exact ⟨⟨hc, by omega, by rw [hl, h.tail_eq], by rw [hl]; exact h.busy_nth⟩, hw⟩

end Holds

namespace Contiguous

variable {b : ReorderBuffer}

theorem holds (h : b.Contiguous) : b.Holds b.window.length := ⟨h.length_le, h.tail_eq, h.busy_nth⟩

theorem window_eq (h : b.Contiguous) : b.window = (List.range b.window.length).map b.nth :=
  (h.holds.contiguous h.capacity_le).2

theorem inFlight_eq (h : b.Contiguous) : b.inFlight = (List.range b.window.length).map b.place := by
  have hc := h.capacity_le
  have hh : b.head < b.capacity := b.head_lt
  exact h.holds.inFlight_eq fun k hk _ => ring_eq_place (by omega)

theorem getElem?_window (h : b.Contiguous) {k : Nat} (hk : k < b.window.length) :
    b.window[k]? = some (b.nth k) := by
  rw [h.window_eq]
  simp [hk]

theorem busy_of_mem (h : b.Contiguous) {s : Slot} (hs : s ∈ b.window) : s.busy = true := by
  rw [h.window_eq] at hs
  obtain ⟨k, hk, rfl⟩ := List.mem_map.1 hs
  have hl := h.length_le
  rw [List.mem_range] at hk
  rw [h.busy_nth k (by omega)]
  exact decide_eq_true hk

/-- A slot of the window, by its number in the buffer. -/
theorem getElem?_slots (h : b.Contiguous) {k : Nat} {s : Slot} (hs : b.window[k]? = some s) :
    b.slots[b.place k]? = some s := by
  have hk : k < b.window.length := (List.getElem?_eq_some_iff.1 hs).1
  rw [getElem?_place, ← h.getElem?_window hk, hs]

theorem hasRoom_eq (h : b.Contiguous) : b.hasRoom = decide (b.window.length < b.capacity) := h.holds.hasRoom_eq

theorem isEmpty_eq (h : b.Contiguous) : b.isEmpty = b.window.isEmpty := by
  rw [h.holds.isEmpty_eq, Bool.eq_iff_iff, decide_eq_true_eq, List.isEmpty_iff_length_eq_zero]

theorem find_eq (h : b.Contiguous) (p : Slot → Bool) : b.find p = (b.window.findIdx? p).map b.place := by
  have hn : ∀ k, b.slots[b.place k]?.any p = p (b.nth k) := fun k => by simp [getElem?_place]
  rw [find, h.inFlight_eq, List.find?_map]
  conv => rhs; rw [h.window_eq, List.findIdx?_map]
  congr 1
  ext k
  simp only [List.find?_range_eq_some, List.findIdx?_eq_some_iff_getElem, Function.comp_apply, hn,
    List.getElem_range, List.length_range, List.mem_range]
  grind

theorem find_eq_some (h : b.Contiguous) {p : Slot → Bool} {i : Nat} (hi : b.find p = some i) :
    ∃ k s, i = b.place k ∧ b.window[k]? = some s ∧ p s = true := by
  rw [h.find_eq, Option.map_eq_some_iff] at hi
  obtain ⟨k, hk, rfl⟩ := hi
  obtain ⟨hlt, hp, -⟩ := List.findIdx?_eq_some_iff_getElem.1 hk
  exact ⟨k, b.window[k], rfl, List.getElem?_eq_getElem hlt, hp⟩

theorem find_eq_none (h : b.Contiguous) {p : Slot → Bool} (hi : b.find p = none) :
    ∀ s ∈ b.window, p s = false := by
  rw [h.find_eq, Option.map_eq_none_iff] at hi
  simpa using List.findIdx?_eq_none_iff.1 hi

/-! ### The operations on the window -/

theorem head_eq_some_iff (h : b.Contiguous) {s : Slot} :
    (b.slots[b.head]? = some s ∧ s.busy = true) ↔ ∃ rest, b.window = s :: rest := by
  rw [← b.place_zero, getElem?_place, Option.some.injEq, ← List.head?_eq_some_iff,
    List.head?_eq_getElem?]
  have hb := h.busy_nth 0 b.capacity_pos
  constructor
  · rintro ⟨rfl, hbusy⟩
    rw [hb] at hbusy
    exact h.getElem?_window (of_decide_eq_true hbusy)
  · intro hs
    have hk : 0 < b.window.length := (List.getElem?_eq_some_iff.1 hs).1
    rw [h.getElem?_window hk, Option.some.injEq] at hs
    subst hs
    exact ⟨rfl, by rw [hb]; exact decide_eq_true hk⟩

theorem modify (h : b.Contiguous) (i : Nat) {f : Slot → Slot} (hf : ∀ s, (f s).busy = s.busy) :
    (b.modify i f).Contiguous ∧ (b.modify i f).window.length = b.window.length := by
  obtain ⟨hc, hw⟩ := (h.holds.modify i hf).contiguous ((b.capacity_modify i f).symm ▸ h.capacity_le)
  exact ⟨hc, by simp [hw]⟩

/-- A change of one slot in flight is a change of one element of the window. -/
theorem window_modify (h : b.Contiguous) {k : Nat} (hk : k < b.window.length) {f : Slot → Slot}
    (hf : ∀ s, (f s).busy = s.busy) :
    (b.modify (b.place k) f).window = b.window.modify k f := by
  obtain ⟨hc, hl⟩ := h.modify (b.place k) hf
  have hle := h.length_le
  apply List.ext_getElem?
  intro j
  rw [List.getElem?_modify]
  by_cases hj : j < b.window.length
  · rw [hc.getElem?_window (by omega), h.getElem?_window hj, nth_modify]
    simp only [place_inj (show j < b.capacity by omega) (show k < b.capacity by omega)]
    by_cases hjk : j = k
    · simp [hjk]
    · simp [hjk, Ne.symm hjk]
  · rw [List.getElem?_eq_none (by omega), List.getElem?_eq_none (by omega)]
    rfl

/-- The slots have distinct occupants, so a change of one of them is a change of the occupant's slot. -/
theorem window_revise (h : b.Contiguous) (hn : (b.window.map Slot.occupant).Nodup) {k : Nat} {s : Slot}
    (hk : b.window[k]? = some s) {id : InstanceId} (ho : s.occupant = some id) {g : Slot → Slot}
    (hg : ∀ s, (g s).busy = s.busy) :
    (b.modify (b.place k) g).window = b.window.map (Slot.revise id g) := by
  have hlt : k < b.window.length := (List.getElem?_eq_some_iff.1 hk).1
  rw [h.window_modify hlt hg]
  apply List.ext_getElem?
  intro j
  rw [List.getElem?_modify, List.getElem?_map]
  by_cases hj : k = j
  · subst hj
    simp [hk, Slot.revise, ho]
  · cases hjs : b.window[j]? with
    | none => rfl
    | some t =>
      have hne : t.occupant ≠ some id := by
        intro ht
        have hp := List.pairwise_iff_getElem.1 hn
        obtain ⟨hjl, hjt⟩ := List.getElem?_eq_some_iff.1 hjs
        obtain ⟨hkl, hks⟩ := List.getElem?_eq_some_iff.1 hk
        rcases Nat.lt_or_gt_of_ne hj with hlt' | hlt'
        · exact hp k j (by simpa) (by simpa) hlt' (by simp [hks, hjt, ho, ht])
        · exact hp j k (by simpa) (by simpa) hlt' (by simp [hks, hjt, ho, ht])
      simp [hj, Slot.revise, hne]

theorem allocate (h : b.Contiguous) {i : Nat} {b' : ReorderBuffer} (ha : b.allocate = .ok (i, b')) :
    b'.Contiguous ∧ b'.window = b.window ++ [.claimed] ∧ b'.capacity = b.capacity ∧
      i = b'.place b.window.length := by
  obtain ⟨hr, hcap, hholds, hi, hplace, hnth⟩ := h.holds.allocate ha
  obtain ⟨hc, hw⟩ := hholds.contiguous (hcap.symm ▸ h.capacity_le)
  refine ⟨hc, ?_, hcap, by rw [hplace, hi]⟩
  rw [hw, List.range_succ, List.map_append, List.map_singleton, hnth _ hr, if_pos rfl]
  congr 1
  conv => rhs; rw [h.window_eq]
  refine List.map_congr_left fun k hk => ?_
  rw [List.mem_range] at hk
  rw [hnth k (by omega), if_neg (by omega)]

/-- The claimed slot is filled where it is. -/
theorem allocate_modify (h : b.Contiguous) {i : Nat} {b' : ReorderBuffer} (ha : b.allocate = .ok (i, b'))
    {f : Slot → Slot} (hf : ∀ s, (f s).busy = s.busy) :
    (b'.modify i f).Contiguous ∧ (b'.modify i f).window = b.window ++ [f .claimed] ∧
      i = (b'.modify i f).place b.window.length := by
  obtain ⟨hc, hw, -, hi⟩ := h.allocate ha
  have hlt : b.window.length < b'.window.length := by
    rw [hw, List.length_append, List.length_singleton]
    omega
  have hplace : (b'.modify i f).place b.window.length = b'.place b.window.length := by
    simp [place, ReorderBuffer.modify, capacity]
  refine ⟨(hc.modify i hf).1, ?_, hi.trans hplace.symm⟩
  rw [hi, hc.window_modify hlt hf, hw]
  apply List.ext_getElem?
  intro j
  rw [List.getElem?_modify, List.getElem?_append, List.getElem?_append]
  by_cases hj : b.window.length = j
  · subst hj
    simp
  · by_cases hjl : j < b.window.length
    · simp [hj, hjl]
    · have hne : j - b.window.length ≠ 0 := by omega
      simp [hj, hjl, hne]

theorem retire (h : b.Contiguous) {i : Nat} {b' : ReorderBuffer} (hr : b.retire = .ok (i, b')) :
    b'.Contiguous ∧ b'.window = b.window.tail ∧ b'.capacity = b.capacity := by
  obtain ⟨hpos, hcap, hholds, -, -, hlast⟩ := h.holds.retire hr
  obtain ⟨hc, hw⟩ := hholds.contiguous (hcap.symm ▸ h.capacity_le)
  have hlen := h.length_le
  refine ⟨hc, ?_, hcap⟩
  rw [hw]
  apply List.ext_getElem?
  intro k
  rw [List.getElem?_tail]
  by_cases hk : k < b.window.length - 1
  · rw [h.getElem?_window (by omega), List.getElem?_map, List.getElem?_range hk,
      Option.map_some, hlast k (by omega)]
  · rw [List.getElem?_eq_none (by simp; omega), List.getElem?_eq_none (by omega)]

end Contiguous

theorem contiguous_ofCapacity {n : Nat} {b : ReorderBuffer} (hn : n ≤ 32768)
    (h : ofCapacity n = .ok b) : b.Contiguous ∧ b.window = [] := by
  obtain ⟨hholds, hcap⟩ := Holds.start h
  exact hholds.contiguous (by omega)

end ReorderBuffer

end OutOfOrder
