import Mathlib.Data.List.Nodup
import OutOfOrder.Machine.Basic
import OutOfOrder.Proofs.Versions

/-!
The window of slots in flight against the versions of the program. What committed is an initial part of the
program; the slots that are not cancelled hold the positions from there to the cursor, oldest first; a
cancelled slot holds a version that a later one has replaced.
-/

set_option autoImplicit false

namespace OutOfOrder

/-- What a slot is for does not change while its instruction makes progress, nor when it was issued. -/
structure Slot.SameRole (s s' : Slot) : Prop where
  isLive : s'.isLive = s.isLive
  occupant : s'.occupant = s.occupant
  instr : s'.instr = s.instr
  arch : s'.arch = s.arch
  tag : s'.tag = s.tag
  issue : s'.times.issue = s.times.issue

/-- Holds an instruction that a branch at the position cancels. -/
def Slot.isAfter (position : Nat) (s : Slot) : Bool :=
  s.isLive && s.occupant.any (position < ·.position)

def Slot.cancelAfter (position : Nat) (s : Slot) : Slot :=
  if s.isAfter position then { s with state := .cancelled, ready := false } else s

theorem Slot.cancelAfter_of_isAfter_eq_false {position : Nat} {s : Slot} (h : s.isAfter position = false) :
    s.cancelAfter position = s := by
  simp [cancelAfter, h]

theorem Slot.arch_cancelAfter (position : Nat) (s : Slot) : (s.cancelAfter position).arch = s.arch := by
  unfold cancelAfter
  split <;> rfl

theorem Slot.tag_cancelAfter (position : Nat) (s : Slot) : (s.cancelAfter position).tag = s.tag := by
  unfold cancelAfter
  split <;> rfl

theorem Slot.cancelAfter_eq_self {position : Nat} {s : Slot} (h : (s.cancelAfter position).isLive = true) :
    s.isAfter position = false ∧ s.cancelAfter position = s := by
  unfold cancelAfter at h ⊢
  split at h
  · simp [isLive] at h
  · next ha => exact ⟨by simpa using ha, if_neg ha⟩

structure Sequenced (code : List Instruction) (f : Fetch) (window : List Slot)
    (commits : List InstanceId) : Prop where
  orderly : f.Orderly code
  commits_le : commits.length ≤ f.pc
  pc_le : f.pc ≤ code.length
  commits_eq : commits.map some = (List.range commits.length).map f.idAt
  live_eq : (window.filter Slot.isLive).map Slot.occupant =
    (List.range' commits.length (f.pc - commits.length)).map f.idAt
  cancelled : ∀ s ∈ window, s.isLive = false →
    ∃ id v, s.occupant = some id ∧ f.get? id = some v ∧ v.stage = .squashed
  committed : ∀ p v, p < commits.length → f.current? p = some v → v.stage = .committed
  inFlight : ∀ s ∈ window, s.isLive = true → ∀ id v, s.occupant = some id → f.get? id = some v →
    if s.ready then v.stage = .written else v.stage = .issued ∨ v.stage = .executed
  waiting : ∀ p v, f.pc ≤ p → f.current? p = some v → v.stage = .unissued
  holds : ∀ s ∈ window, ∃ id i, s.occupant = some id ∧ code[id.position]? = some i ∧
    s.instr = some i ∧ s.arch = i.dest
  nodup : (window.map Slot.occupant).Nodup
  /-- A cancelled slot at the end means that its position is yet to be issued again. -/
  youngest : f.pc < code.length ∨ ∀ s, window.getLast? = some s → s.isLive = true

namespace Sequenced

variable {code : List Instruction} {f : Fetch} {w : List Slot} {commits : List InstanceId}

theorem filter_live_map {u : Slot → Slot} (hu : ∀ s ∈ w, s.SameRole (u s)) :
    ((w.map u).filter Slot.isLive).map Slot.occupant = (w.filter Slot.isLive).map Slot.occupant := by
  have hp : w.filter (Slot.isLive ∘ u) = w.filter Slot.isLive :=
    List.filter_congr fun s hs => (hu s hs).isLive
  rw [List.filter_map, hp, List.map_map]
  exact List.map_congr_left fun s hs => (hu s (List.mem_filter.1 hs).1).occupant

theorem idAt_eq (h : Sequenced code f w commits) {p : Nat} (hp : p < code.length) :
    ∃ v, f.current? p = some v ∧ f.idAt p = some v.id ∧ v.id.position = p := by
  obtain ⟨v, hv⟩ := h.orderly.exists_current hp
  exact ⟨v, hv, by simp [Fetch.idAt, hv], h.orderly.position_current hv⟩

/-- A slot that is not cancelled holds the current version of a position in flight. -/
theorem current_of_live (h : Sequenced code f w commits) {s : Slot} (hs : s ∈ w)
    (hl : s.isLive = true) : ∃ v, s.occupant = some v.id ∧ f.current? v.id.position = some v ∧
      commits.length ≤ v.id.position ∧ v.id.position < f.pc := by
  have hm : s.occupant ∈ (w.filter Slot.isLive).map Slot.occupant :=
    List.mem_map_of_mem (List.mem_filter.2 ⟨hs, hl⟩)
  rw [h.live_eq] at hm
  obtain ⟨p, hp, hid⟩ := List.mem_map.1 hm
  rw [List.mem_range'_1] at hp
  have hpc := h.pc_le
  obtain ⟨v, hv, hvid, hpos⟩ := h.idAt_eq (show p < code.length by omega)
  exact ⟨v, by rw [← hid, hvid], by rw [hpos, hv], by omega, by omega⟩

/-- The slots that are not cancelled stand in program order. -/
theorem pairwise_live (h : Sequenced code f w commits) : w.Pairwise fun s t => s.isLive = true →
    t.isLive = true → ∀ a b, s.occupant = some a → t.occupant = some b → a.position < b.position := by
  have hp : ((w.filter Slot.isLive).map Slot.occupant).Pairwise fun o o' =>
      ∀ a b, o = some a → o' = some b → a.position < b.position := by
    have hpc := h.pc_le
    rw [h.live_eq, List.pairwise_map]
    refine (List.pairwise_lt_range' (s := commits.length) (n := f.pc - commits.length)).imp_of_mem ?_
    intro p q hp hq hpq a b ha hb
    rw [List.mem_range'_1] at hp hq
    obtain ⟨v, _, hv, hvp⟩ := h.idAt_eq (show p < code.length by omega)
    obtain ⟨x, _, hx, hxp⟩ := h.idAt_eq (show q < code.length by omega)
    rw [hv] at ha
    rw [hx] at hb
    obtain rfl := Option.some.inj ha
    obtain rfl := Option.some.inj hb
    omega
  rw [List.pairwise_map, List.pairwise_filter] at hp
  exact hp

theorem stage_of_live (h : Sequenced code f w commits) {s : Slot} (hs : s ∈ w) (hl : s.isLive = true)
    {v : Instance} (ho : s.occupant = some v.id) (hv : f.current? v.id.position = some v) :
    if s.ready then v.stage = .written else v.stage = .issued ∨ v.stage = .executed := by
  have hg := h.orderly.get?_current hv
  exact h.inFlight s hs hl v.id v ho hg

/-- Every position in flight has its slot. -/
theorem exists_live (h : Sequenced code f w commits) {p : Nat} (hc : commits.length ≤ p)
    (hp : p < f.pc) : ∃ s ∈ w, s.isLive = true ∧ s.occupant = f.idAt p := by
  have hm : f.idAt p ∈ (w.filter Slot.isLive).map Slot.occupant := by
    rw [h.live_eq]
    exact List.mem_map_of_mem (List.mem_range'_1.2 ⟨hc, by omega⟩)
  obtain ⟨s, hs, ho⟩ := List.mem_map.1 hm
  rw [List.mem_filter] at hs
  exact ⟨s, hs.1, hs.2, ho⟩

/-- Whether a position has been issued can be read off the stage of its current version. -/
theorem issued_iff (h : Sequenced code f w commits) {p : Nat} {v : Instance}
    (hv : f.current? p = some v) : v.stage ≠ .unissued ↔ p < f.pc := by
  constructor
  · intro hs
    by_contra hp
    exact hs (h.waiting p v (by omega) hv)
  · intro hp
    by_cases hc : p < commits.length
    · simp [h.committed p v hc hv]
    · obtain ⟨s, hs, hl, ho⟩ := h.exists_live (by omega) hp
      have hpos := h.orderly.position_current hv
      rw [Fetch.idAt, hv, Option.map_some] at ho
      have hst := h.stage_of_live hs hl ho (by rw [Instance.id, hpos, hv])
      split at hst
      · simp [hst]
      · rcases hst with hst | hst <;> simp [hst]

/-! ### Progress of the instructions in flight -/

/-- Slots keep their roles and versions their names; what remains to be seen is the stages. -/
theorem of_sameRole (h : Sequenced code f w commits) {f' : Fetch} {u : Slot → Slot}
    (hu : ∀ s ∈ w, s.SameRole (u s)) (horderly : f'.Orderly code) (hpc : f'.pc = f.pc)
    (hid : f'.idAt = f.idAt)
    (hcancelled : ∀ s ∈ w, s.isLive = false →
      ∃ id v, s.occupant = some id ∧ f'.get? id = some v ∧ v.stage = .squashed)
    (hcommitted : ∀ p v, p < commits.length → f'.current? p = some v → v.stage = .committed)
    (hinFlight : ∀ s ∈ w, s.isLive = true → ∀ id v, s.occupant = some id → f'.get? id = some v →
      if (u s).ready then v.stage = .written else v.stage = .issued ∨ v.stage = .executed)
    (hwaiting : ∀ p v, f.pc ≤ p → f'.current? p = some v → v.stage = .unissued) :
    Sequenced code f' (w.map u) commits where
  orderly := horderly
  commits_le := by rw [hpc]; exact h.commits_le
  pc_le := by rw [hpc]; exact h.pc_le
  commits_eq := by rw [hid]; exact h.commits_eq
  live_eq := by rw [filter_live_map hu, hpc, hid, h.live_eq]
  cancelled := by
    intro s' hs' hl
    obtain ⟨s, hs, rfl⟩ := List.mem_map.1 hs'
    rw [(hu s hs).isLive] at hl
    rw [(hu s hs).occupant]
    exact hcancelled s hs hl
  committed := hcommitted
  inFlight := by
    intro s' hs' hl id v ho
    obtain ⟨s, hs, rfl⟩ := List.mem_map.1 hs'
    rw [(hu s hs).isLive] at hl
    rw [(hu s hs).occupant] at ho
    exact hinFlight s hs hl id v ho
  waiting := by rw [hpc]; exact hwaiting
  holds := by
    intro s' hs'
    obtain ⟨s, hs, rfl⟩ := List.mem_map.1 hs'
    rw [(hu s hs).occupant, (hu s hs).instr, (hu s hs).arch]
    exact h.holds s hs
  nodup := by
    have ho : (w.map u).map Slot.occupant = w.map Slot.occupant := by
      rw [List.map_map]
      exact List.map_congr_left fun s hs => (hu s hs).occupant
    rw [ho]
    exact h.nodup
  youngest := by
    rw [hpc]
    refine h.youngest.imp_right fun hy s' hs' => ?_
    rw [List.getLast?_map, Option.map_eq_some_iff] at hs'
    obtain ⟨s, hs, rfl⟩ := hs'
    rw [(hu s (List.mem_of_getLast? hs)).isLive]
    exact hy s hs

/-- Slots change, the versions do not. -/
theorem map (h : Sequenced code f w commits) {u : Slot → Slot} (hu : ∀ s ∈ w, s.SameRole (u s))
    (hr : ∀ s ∈ w, (u s).ready = s.ready) : Sequenced code f (w.map u) commits := by
  refine h.of_sameRole hu h.orderly rfl rfl h.cancelled h.committed ?_ h.waiting
  intro s hs hl
  rw [hr s hs]
  exact h.inFlight s hs hl

section Promote

variable {v : Instance} {stage : Stage} {times : Times}

/-- The version with a new stage and new times. -/
abbrev moved (stage : Stage) (times : Times) (v : Instance) : Instance := { v with stage, times }

theorem idAt_promote (h : Sequenced code f w commits) {p : Nat} (hv : f.current? p = some v) :
    (f.modify v.id (moved stage times)).idAt = f.idAt := by
  funext q
  rw [Fetch.idAt, Fetch.idAt, Fetch.current?_modify h.orderly hv]
  split
  · next hq => simp [hq, hv, Instance.id]
  · rfl

/-- A version that is in flight moves on, and its slot with it. -/
theorem promote (h : Sequenced code f w commits) {s₀ : Slot} (hs₀ : s₀ ∈ w) (hl₀ : s₀.isLive = true)
    (ho₀ : s₀.occupant = some v.id) (hv : f.current? v.id.position = some v) {u : Slot → Slot}
    (hu : ∀ s ∈ w, s.SameRole (u s)) (hr : ∀ s ∈ w, s.occupant ≠ some v.id → (u s).ready = s.ready)
    (hst : if (u s₀).ready then stage = .written else stage = .issued ∨ stage = .executed) :
    Sequenced code (f.modify v.id (moved stage times)) (w.map u) commits := by
  have hns : stage ≠ .squashed := by
    split at hst
    · simp [hst]
    · rcases hst with hst | hst <;> simp [hst]
  obtain ⟨v', ho', _, hc, hpc⟩ := h.current_of_live hs₀ hl₀
  have hvv : v'.id = v.id := Option.some.inj (ho'.symm.trans ho₀)
  rw [hvv] at hc hpc
  have hsame : ∀ s ∈ w, s.occupant = some v.id → s = s₀ := fun s hs ho =>
    List.inj_on_of_nodup_map h.nodup hs hs₀ (ho.trans ho₀.symm)
  have hcur := Fetch.current?_modify h.orderly hv (moved stage times)
  refine h.of_sameRole hu (h.orderly.modify hv ⟨rfl, rfl⟩ hns) rfl (h.idAt_promote hv) ?_ ?_ ?_ ?_
  · intro s hs hl
    obtain ⟨id, x, ho, hx, hsq⟩ := h.cancelled s hs hl
    refine ⟨id, x, ho, ?_, hsq⟩
    have hne : v.id ≠ id := by
      rintro rfl
      rw [hsame s hs ho, hl₀] at hl
      simp at hl
    rw [Fetch.get?_modify, if_neg hne, hx]
  · intro q x hq hx
    rw [hcur, if_neg (by omega)] at hx
    exact h.committed q x hq hx
  · intro s hs hl id x ho hx
    rw [Fetch.get?_modify] at hx
    split at hx
    · next hid =>
      subst hid
      obtain ⟨y, _, rfl⟩ := Option.map_eq_some_iff.1 hx
      rw [hsame s hs ho]
      exact hst
    · next hid =>
      rw [hr s hs (by rw [ho]; exact fun he => hid (Option.some.inj he).symm)]
      exact h.inFlight s hs hl id x ho hx
  · intro q x hq hx
    rw [hcur, if_neg (by omega)] at hx
    exact h.waiting q x hq hx

end Promote

/-! ### Entering and leaving the window -/

theorem start (code : List Instruction) : Sequenced code (.ofCode code) [] [] where
  orderly := Fetch.orderly_ofCode code
  commits_le := Nat.zero_le _
  pc_le := Nat.zero_le _
  commits_eq := rfl
  live_eq := rfl
  cancelled := by simp
  committed := by simp
  inFlight := by simp
  waiting := by
    intro p v _ hv
    rw [Fetch.current?_ofCode] at hv
    obtain ⟨i, _, rfl⟩ := Option.map_eq_some_iff.1 hv
    rfl
  holds := by simp
  nodup := List.nodup_nil
  youngest := by simp

/-- The version at the cursor has no slot yet. -/
theorem occupant_ne_next (h : Sequenced code f w commits) {v : Instance} (hv : f.next? = some v) :
    ∀ s ∈ w, s.occupant ≠ some v.id := by
  have hpos : v.id.position = f.pc := h.orderly.position_current hv
  have hun : v.stage = .unissued := h.waiting _ _ (Nat.le_refl _) hv
  intro s hs hso
  by_cases hl : s.isLive = true
  · obtain ⟨x, hx, _, _, hxp⟩ := h.current_of_live hs hl
    rw [Option.some.inj (hx.symm.trans hso)] at hxp
    omega
  · obtain ⟨id, x, hx, hg, hsq⟩ := h.cancelled s hs (by simpa using hl)
    obtain rfl := Option.some.inj (hx.symm.trans hso)
    rw [h.orderly.get?_current hv] at hg
    obtain rfl := Option.some.inj hg
    rw [hun] at hsq
    simp at hsq

theorem get?_modify_of_occupant_ne {v : Instance} {g : Instance → Instance}
    (hw : ∀ s ∈ w, s.occupant ≠ some v.id) {s : Slot} (hs : s ∈ w) {id : InstanceId}
    (ho : s.occupant = some id) : (f.modify v.id g).get? id = f.get? id := by
  rw [Fetch.get?_modify, if_neg]
  rintro rfl
  exact hw s hs ho

/-- The instruction at the cursor takes the slot behind the others. -/
theorem issue (h : Sequenced code f w commits) {v : Instance} (hv : f.next? = some v) {s : Slot}
    (hl : s.isLive = true) (ho : s.occupant = some v.id) (hi : s.instr = some v.instr)
    (ha : s.arch = v.instr.dest) (hr : s.ready = false) (times : Times) :
    Sequenced code ((f.modify v.id (moved .issued times)).advance) (w ++ [s]) commits := by
  have hcle := h.commits_le
  have hlt : f.pc < code.length := h.orderly.lt_length hv
  have hpos : v.id.position = f.pc := h.orderly.position_current hv
  have hat : f.idAt f.pc = some v.id := by rw [Fetch.idAt, show f.current? f.pc = some v from hv]; rfl
  have hid : (f.modify v.id (moved .issued times)).idAt = f.idAt := h.idAt_promote hv
  have hcur := Fetch.current?_modify h.orderly hv (moved .issued times)
  have hfresh := h.occupant_ne_next hv
  refine
    { orderly := (h.orderly.modify hv ⟨rfl, rfl⟩ (by simp)).advance
      commits_le := Nat.le_succ_of_le hcle
      pc_le := hlt
      commits_eq := ?_, live_eq := ?_, cancelled := ?_, committed := ?_, inFlight := ?_, waiting := ?_
      holds := ?_, nodup := ?_, youngest := ?_ }
  · show commits.map some = (List.range commits.length).map (f.modify v.id (moved .issued times)).idAt
    rw [hid, h.commits_eq]
  · show _ = (List.range' commits.length (f.pc + 1 - commits.length)).map
      (f.modify v.id (moved .issued times)).idAt
    have hn : f.pc + 1 - commits.length = f.pc - commits.length + 1 := by omega
    have hend : commits.length + (f.pc - commits.length) = f.pc := by omega
    rw [hid, hn, List.range'_1_concat, List.map_append, ← h.live_eq, hend]
    simp [hl, ho, hat]
  · intro t ht htl
    rcases List.mem_append.1 ht with ht | ht
    · obtain ⟨id, x, hto, hx, hsq⟩ := h.cancelled t ht htl
      exact ⟨id, x, hto, (get?_modify_of_occupant_ne hfresh ht hto).trans hx, hsq⟩
    · rw [List.mem_singleton.1 ht, hl] at htl
      simp at htl
  · intro q x hq hx
    change (f.modify v.id (moved .issued times)).current? q = some x at hx
    rw [hcur, if_neg (by omega)] at hx
    exact h.committed q x hq hx
  · intro t ht htl id x hto hx
    change (f.modify v.id (moved .issued times)).get? id = some x at hx
    rcases List.mem_append.1 ht with ht | ht
    · exact h.inFlight t ht htl id x hto ((get?_modify_of_occupant_ne hfresh ht hto).symm.trans hx)
    · rw [List.mem_singleton.1 ht] at hto ⊢
      obtain rfl := Option.some.inj (ho.symm.trans hto)
      rw [Fetch.get?_modify, if_pos rfl] at hx
      obtain ⟨y, _, rfl⟩ := Option.map_eq_some_iff.1 hx
      simp [hr]
  · intro q x hq hx
    have hqpc : f.pc + 1 ≤ q := hq
    change (f.modify v.id (moved .issued times)).current? q = some x at hx
    rw [hcur, if_neg (by omega)] at hx
    exact h.waiting q x (by omega) hx
  · intro t ht
    rcases List.mem_append.1 ht with ht | ht
    · exact h.holds t ht
    · rw [List.mem_singleton.1 ht]
      exact ⟨v.id, v.instr, ho, by rw [hpos]; exact h.orderly.instr_current hv, hi, ha⟩
  · rw [List.map_append, List.nodup_append]
    refine ⟨h.nodup, by simp, ?_⟩
    intro a ha' b hb hab
    obtain ⟨t, ht, rfl⟩ := List.mem_map.1 ha'
    simp only [List.map_cons, List.map_nil, List.mem_singleton] at hb
    exact hfresh t ht (by rw [hab, hb, ho])
  · right
    intro t ht
    simp only [List.getLast?_append, List.getLast?_singleton, Option.some_or, Option.some.injEq] at ht
    rw [← ht, hl]

theorem youngest_tail {s : Slot} {rest : List Slot} (h : Sequenced code f (s :: rest) commits) :
    f.pc < code.length ∨ ∀ t, rest.getLast? = some t → t.isLive = true := by
  refine h.youngest.imp_right fun hy t ht => hy t ?_
  rw [List.getLast?_cons, ht]
  rfl

/-- A head that is not cancelled holds the first position in flight, the slots behind it the others. -/
theorem live_cons {s : Slot} {rest : List Slot} (h : Sequenced code f (s :: rest) commits)
    (hl : s.isLive = true) : commits.length < f.pc ∧ s.occupant = f.idAt commits.length ∧
      (rest.filter Slot.isLive).map Slot.occupant =
        (List.range' (commits.length + 1) (f.pc - (commits.length + 1))).map f.idAt := by
  have hlive := h.live_eq
  rw [List.filter_cons_of_pos hl, List.map_cons] at hlive
  have hlt : commits.length < f.pc := by
    by_contra hle
    rw [Nat.sub_eq_zero_of_le (by omega)] at hlive
    simp at hlive
  have hn : f.pc - commits.length = f.pc - (commits.length + 1) + 1 := by omega
  rw [hn, List.range'_succ, List.map_cons, List.cons.injEq] at hlive
  exact ⟨hlt, hlive⟩

/-- The head retires: the first position in flight commits. -/
theorem commit {s : Slot} {rest : List Slot} (h : Sequenced code f (s :: rest) commits)
    (hl : s.isLive = true) {v : Instance} (ho : s.occupant = some v.id)
    (hv : f.current? v.id.position = some v) (times : Times) :
    v.id.position = commits.length ∧
      Sequenced code (f.modify v.id (moved .committed times)) rest (commits ++ [v.id]) := by
  have hid : (f.modify v.id (moved .committed times)).idAt = f.idAt := h.idAt_promote hv
  have hcur := Fetch.current?_modify h.orderly hv (moved .committed times)
  have hpc := h.pc_le
  obtain ⟨hlt, hhead, hrest⟩ := h.live_cons hl
  obtain ⟨x, _, hxid, hxpos⟩ := h.idAt_eq (show commits.length < code.length by omega)
  have hpos : v.id.position = commits.length := by
    rw [ho, hxid] at hhead
    rw [Option.some.inj hhead, hxpos]
  have hnodup := h.nodup
  rw [List.map_cons, List.nodup_cons] at hnodup
  have hne : ∀ t ∈ rest, t.occupant ≠ some v.id := fun t ht hto =>
    hnodup.1 (List.mem_map.2 ⟨t, ht, hto.trans ho.symm⟩)
  refine ⟨hpos,
    { orderly := h.orderly.modify hv ⟨rfl, rfl⟩ (by simp)
      commits_le := ?_, pc_le := hpc, commits_eq := ?_, live_eq := ?_, cancelled := ?_, committed := ?_
      inFlight := ?_, waiting := ?_, holds := fun t ht => h.holds t (List.mem_cons_of_mem s ht)
      nodup := hnodup.2, youngest := h.youngest_tail }⟩
  · rw [List.length_append, List.length_singleton]
    exact hlt
  · rw [hid, List.length_append, List.length_singleton, List.range_succ, List.map_append,
      List.map_append, h.commits_eq, List.map_singleton, List.map_singleton, ← hhead, ho]
  · rw [hid, List.length_append, List.length_singleton]
    exact hrest
  · intro t ht htl
    obtain ⟨id, y, hto, hy, hsq⟩ := h.cancelled t (List.mem_cons_of_mem s ht) htl
    exact ⟨id, y, hto, (get?_modify_of_occupant_ne hne ht hto).trans hy, hsq⟩
  · intro q y hq hy
    rw [List.length_append, List.length_singleton] at hq
    rw [hcur] at hy
    split at hy
    · obtain rfl := Option.some.inj hy
      rfl
    · exact h.committed q y (by omega) hy
  · intro t ht htl id y hto hy
    rw [get?_modify_of_occupant_ne hne ht hto] at hy
    exact h.inFlight t (List.mem_cons_of_mem s ht) htl id y hto hy
  · intro q y hq hy
    have hqpc : f.pc ≤ q := hq
    rw [hcur, if_neg (by omega)] at hy
    exact h.waiting q y hqpc hy

/-- A cancelled head leaves nothing behind. -/
theorem discard {s : Slot} {rest : List Slot} (h : Sequenced code f (s :: rest) commits)
    (hl : s.isLive = false) : Sequenced code f rest commits := by
  have hnodup := h.nodup
  have hlive := h.live_eq
  rw [List.map_cons, List.nodup_cons] at hnodup
  rw [List.filter_cons_of_neg (by simp [hl])] at hlive
  exact
    { orderly := h.orderly, commits_le := h.commits_le, pc_le := h.pc_le, commits_eq := h.commits_eq
      live_eq := hlive
      cancelled := fun t ht => h.cancelled t (List.mem_cons_of_mem s ht)
      committed := h.committed
      inFlight := fun t ht => h.inFlight t (List.mem_cons_of_mem s ht)
      waiting := h.waiting
      holds := fun t ht => h.holds t (List.mem_cons_of_mem s ht)
      nodup := hnodup.2, youngest := h.youngest_tail }

/-! ### A taken branch -/

section Squash

variable {b : Nat}

theorem issuedAfter_eq (h : Sequenced code f w commits) (b : Nat) :
    (f.issuedAfter b).map some = (List.range' (b + 1) (f.pc - (b + 1))).map f.idAt := by
  have hm : min f.pc code.length = f.pc := Nat.min_eq_left h.pc_le
  have hi := Fetch.issuedAfter_eq h.orderly (fun q v hq hv => (h.issued_iff hv).2 hq) h.waiting b
  rwa [hm] at hi

theorem length_issuedAfter (h : Sequenced code f w commits) (b : Nat) :
    (f.issuedAfter b).length = f.pc - (b + 1) := by
  have hlength := congrArg List.length (h.issuedAfter_eq b)
  simpa using hlength

theorem pc_renewAfter (h : Sequenced code f w commits) (hb : b < f.pc) : (f.renewAfter b).pc = b + 1 := by
  have hi := h.issuedAfter_eq b
  have hpc := h.pc_le
  cases hn : f.pc - (b + 1) with
  | zero =>
    rw [hn] at hi
    have hnil : f.issuedAfter b = [] := by simpa using hi
    simp only [Fetch.renewAfter, hnil]
    omega
  | succ n =>
    rw [hn, List.range'_succ, List.map_cons] at hi
    obtain ⟨x, _, hxid, hxpos⟩ := h.idAt_eq (show b + 1 < code.length by omega)
    cases hl : f.issuedAfter b with
    | nil => rw [hl] at hi; simp at hi
    | cons first rest =>
      rw [hl, List.map_cons, List.cons.injEq, hxid] at hi
      simp only [Fetch.renewAfter, hl, Option.some.inj hi.1, hxpos]
      omega

theorem idAt_renewAfter (h : Sequenced code f w commits) {p : Nat} (hp : p ≤ b) :
    (f.renewAfter b).idAt p = f.idAt p := by
  have hn : ¬b < p := by omega
  rw [Fetch.idAt, Fetch.idAt, Fetch.current?_renewAfter h.orderly]
  simp [hn]

theorem mem_issuedAfter_iff (h : Sequenced code f w commits) (hb : commits.length ≤ b) {s : Slot}
    (hs : s ∈ w) : s.occupant ∈ (f.issuedAfter b).map some ↔ s.isAfter b = true := by
  have hpcle := h.pc_le
  rw [h.issuedAfter_eq, Slot.isAfter]
  constructor
  · intro hm
    obtain ⟨p, hp, hid⟩ := List.mem_map.1 hm
    rw [List.mem_range'_1] at hp
    obtain ⟨t, ht, htl, hto⟩ := h.exists_live (show commits.length ≤ p by omega) (by omega)
    rw [← List.inj_on_of_nodup_map h.nodup ht hs (hto.trans hid)]
    obtain ⟨v, _, hv, hpos⟩ := h.idAt_eq (show p < code.length by omega)
    have hbp : b < p := by omega
    simp [htl, hto, hv, hpos, hbp]
  · intro hm
    rw [Bool.and_eq_true] at hm
    obtain ⟨v, ho, hv, _, hpc⟩ := h.current_of_live hs hm.1
    rw [ho] at hm ⊢
    have hbp : b < v.id.position := by simpa using hm.2
    refine List.mem_map.2 ⟨v.id.position, List.mem_range'_1.2 ⟨hbp, by omega⟩, ?_⟩
    rw [Fetch.idAt, hv]
    rfl

theorem filter_live_cancelAfter (w : List Slot) (b : Nat) :
    ((w.map (Slot.cancelAfter b)).filter Slot.isLive).map Slot.occupant =
      ((w.filter Slot.isLive).map Slot.occupant).filter fun o => !o.any (b < ·.position) := by
  induction w with
  | nil => rfl
  | cons s rest ih =>
    rw [List.map_cons, List.filter_cons, List.filter_cons]
    by_cases hl : s.isLive = true
    · by_cases hy : s.occupant.any (b < ·.position) = true
      · have hc : (s.cancelAfter b).isLive = false := by
          rw [Slot.cancelAfter, Slot.isAfter, hl, hy]
          rfl
        simp [hc, hl, hy, ih]
      · have hc : s.cancelAfter b = s := by simp [Slot.cancelAfter, Slot.isAfter, hy]
        simp [hc, hl, hy, ih]
    · have hc : s.cancelAfter b = s := by simp [Slot.cancelAfter, Slot.isAfter, hl]
      simp [hc, hl, ih]

/-- A branch leaves alone what is older than a slot that it leaves alone. -/
theorem take_cancelAfter (h : Sequenced code f w commits) {k : Nat} {s : Slot} (hs : w[k]? = some s)
    (hl : s.isLive = true) (hb : s.isAfter b = false) :
    (w.map (Slot.cancelAfter b)).take (k + 1) = w.take (k + 1) := by
  have hkeep : ∀ t ∈ w.take (k + 1), t.cancelAfter b = t := by
    intro t ht
    rw [Slot.cancelAfter, if_neg]
    intro ha
    obtain ⟨j, hj⟩ := List.mem_iff_getElem?.1 ht
    rw [List.getElem?_take] at hj
    split at hj
    · next hjk =>
      rw [Slot.isAfter, Bool.and_eq_true] at ha
      obtain ⟨x, hx, _⟩ := h.current_of_live (List.mem_of_getElem? hj) ha.1
      obtain ⟨v, hv, _⟩ := h.current_of_live (List.mem_of_getElem? hs) hl
      have hbx : b < x.id.position := by simpa [hx] using ha.2
      have hbv : ¬b < v.id.position := by simpa [Slot.isAfter, hl, hv] using hb
      by_cases he : j = k
      · rw [he, hs] at hj
        obtain rfl := Option.some.inj hj
        rw [hx] at hv
        rw [Option.some.inj hv] at hbx
        exact hbv hbx
      · have hlt : x.id.position < v.id.position := by
          obtain ⟨hjw, hj⟩ := List.getElem?_eq_some_iff.1 hj
          obtain ⟨hkw, hk⟩ := List.getElem?_eq_some_iff.1 hs
          have hp := List.pairwise_iff_getElem.1 h.pairwise_live j k hjw hkw (by omega)
          rw [hj, hk] at hp
          exact hp ha.1 hl _ _ hx hv
        omega
    · simp at hj
  rw [← List.map_take, List.map_congr_left hkeep, List.map_id']

theorem occupant_cancelAfter (s : Slot) (b : Nat) : (s.cancelAfter b).occupant = s.occupant := by
  unfold Slot.cancelAfter
  split <;> rfl

theorem any_idAt (h : Sequenced code f w commits) {p : Nat} (hp : p < code.length) :
    (f.idAt p).any (b < ·.position) = decide (b < p) := by
  obtain ⟨v, _, hv, hpos⟩ := h.idAt_eq hp
  simp [hv, hpos]

/-- Of the positions in flight those up to the branch are left. -/
theorem live_cancelAfter (h : Sequenced code f w commits) (hc : commits.length ≤ b) (hb : b < f.pc) :
    ((w.map (Slot.cancelAfter b)).filter Slot.isLive).map Slot.occupant =
      (List.range' commits.length (b + 1 - commits.length)).map (f.renewAfter b).idAt := by
  have hpcle := h.pc_le
  have hsplit : List.range' commits.length (f.pc - commits.length) =
      List.range' commits.length (b + 1 - commits.length) ++ List.range' (b + 1) (f.pc - (b + 1)) := by
    have hmid : commits.length + (b + 1 - commits.length) = b + 1 := by omega
    have happ := List.range'_append_1 (s := commits.length) (m := b + 1 - commits.length)
      (n := f.pc - (b + 1))
    rw [hmid] at happ
    rw [happ]
    congr 1
    omega
  have holder : ((List.range' commits.length (b + 1 - commits.length)).map f.idAt).filter
      (fun o => !o.any (b < ·.position)) =
      (List.range' commits.length (b + 1 - commits.length)).map f.idAt := by
    rw [List.filter_eq_self]
    intro o ho
    obtain ⟨p, hp, rfl⟩ := List.mem_map.1 ho
    rw [List.mem_range'_1] at hp
    rw [h.any_idAt (by omega), decide_eq_false (by omega)]
    rfl
  have hyounger : ((List.range' (b + 1) (f.pc - (b + 1))).map f.idAt).filter
      (fun o => !o.any (b < ·.position)) = [] := by
    rw [List.filter_eq_nil_iff]
    intro o ho
    obtain ⟨p, hp, rfl⟩ := List.mem_map.1 ho
    rw [List.mem_range'_1] at hp
    rw [h.any_idAt (by omega), decide_eq_true (by omega)]
    simp
  rw [filter_live_cancelAfter, h.live_eq, hsplit, List.map_append, List.filter_append, holder, hyounger,
    List.append_nil]
  refine List.map_congr_left fun p hp => ?_
  rw [List.mem_range'_1] at hp
  exact (h.idAt_renewAfter (by omega)).symm

/-- What a branch cancels it squashes. -/
theorem cancelled_renewAfter (h : Sequenced code f w commits) {s : Slot} (hs : s ∈ w)
    (hl : (s.cancelAfter b).isLive = false) :
    ∃ id v, s.occupant = some id ∧ (f.renewAfter b).get? id = some v ∧ v.stage = .squashed := by
  by_cases hy : s.isAfter b = true
  · rw [Slot.isAfter, Bool.and_eq_true] at hy
    obtain ⟨v, ho, hv, _, hvpc⟩ := h.current_of_live hs hy.1
    have hlt : b < v.id.position := by simpa [ho] using hy.2
    have hun := (h.issued_iff hv).2 hvpc
    have hns := h.orderly.stage_current hv
    refine ⟨v.id, _, ho, Fetch.get?_renewAfter h.orderly b (h.orderly.get?_current hv), ?_⟩
    simp [hlt, hun, hns]
  · rw [Slot.cancelAfter_of_isAfter_eq_false (by simpa using hy)] at hl
    obtain ⟨id, v, ho, hv, hsq⟩ := h.cancelled s hs hl
    exact ⟨id, v, ho, by simp [Fetch.get?_renewAfter h.orderly b hv, hsq], hsq⟩

/-- What is up to the branch keeps its stage. -/
theorem inFlight_renewAfter (h : Sequenced code f w commits) {s : Slot} (hs : s ∈ w)
    (hl : s.isLive = true) (hy : s.isAfter b = false) {id : InstanceId} {v : Instance}
    (ho : s.occupant = some id) (hv : (f.renewAfter b).get? id = some v) :
    if s.ready then v.stage = .written else v.stage = .issued ∨ v.stage = .executed := by
  obtain ⟨x, hxo, hx, _, _⟩ := h.current_of_live hs hl
  obtain rfl := Option.some.inj (hxo.symm.trans ho)
  have hn : ¬b < x.id.position := by simpa [Slot.isAfter, hl, ho] using hy
  rw [Fetch.get?_renewAfter h.orderly b (h.orderly.get?_current hx)] at hv
  simp only [hn, false_and, if_false, Option.some.injEq] at hv
  rw [← hv]
  exact h.stage_of_live hs hl ho hx

theorem waiting_renewAfter (h : Sequenced code f w commits) {p : Nat} (hp : b < p) {v : Instance}
    (hv : (f.renewAfter b).current? p = some v) : v.stage = .unissued := by
  rw [Fetch.current?_renewAfter h.orderly b] at hv
  obtain ⟨x, hx, rfl⟩ := Option.map_eq_some_iff.1 hv
  by_cases hst : x.stage = .unissued
  · simp [hst]
  · simp [hst, hp, Instance.fresh]

/-- Something is squashed unless the branch was the last to be issued. -/
theorem youngest_cancelAfter (h : Sequenced code f w commits) (hb : b < f.pc) :
    b + 1 < code.length ∨ ∀ s, (w.map (Slot.cancelAfter b)).getLast? = some s → s.isLive = true := by
  have hpcle := h.pc_le
  by_cases hlast : b + 1 < f.pc
  · left
    omega
  · refine h.youngest.imp (fun hlt => by omega) fun hy s' hs' => ?_
    rw [List.getLast?_map, Option.map_eq_some_iff] at hs'
    obtain ⟨s, hs, rfl⟩ := hs'
    have hl := hy s hs
    obtain ⟨v, ho, _, _, hvpc⟩ := h.current_of_live (List.mem_of_getLast? hs) hl
    have hn : ¬b < v.id.position := by omega
    rw [Slot.cancelAfter_of_isAfter_eq_false (by simp [Slot.isAfter, ho, hn])]
    exact hl

/-- A branch in flight is taken: its younger instructions are to be issued again. -/
theorem squash (h : Sequenced code f w commits) (hc : commits.length ≤ b) (hb : b < f.pc) :
    Sequenced code (f.renewAfter b) (w.map (Slot.cancelAfter b)) commits := by
  have hpc := h.pc_renewAfter hb
  have hpcle := h.pc_le
  refine
    { orderly := h.orderly.renewAfter b
      commits_le := by omega
      pc_le := by omega
      commits_eq := ?_, live_eq := by rw [hpc]; exact h.live_cancelAfter hc hb
      cancelled := ?_, committed := ?_, inFlight := ?_
      waiting := fun p v hp hv => h.waiting_renewAfter (by omega) hv
      holds := ?_, nodup := ?_, youngest := by rw [hpc]; exact h.youngest_cancelAfter hb }
  · rw [h.commits_eq]
    refine List.map_congr_left fun p hp => ?_
    rw [List.mem_range] at hp
    exact (h.idAt_renewAfter (by omega)).symm
  · intro s' hs' hl
    obtain ⟨s, hs, rfl⟩ := List.mem_map.1 hs'
    rw [occupant_cancelAfter]
    exact h.cancelled_renewAfter hs hl
  · intro p v hp hv
    have hn : ¬b < p := by omega
    rw [Fetch.current?_renewAfter h.orderly b] at hv
    simp only [hn, false_and, if_false, Option.map_id'] at hv
    exact h.committed p v hp hv
  · intro s' hs' hl id v ho hv
    obtain ⟨s, hs, rfl⟩ := List.mem_map.1 hs'
    obtain ⟨hy, hself⟩ := Slot.cancelAfter_eq_self hl
    rw [hself] at hl ho ⊢
    exact h.inFlight_renewAfter hs hl hy ho hv
  · intro s' hs'
    obtain ⟨s, hs, rfl⟩ := List.mem_map.1 hs'
    obtain ⟨id, i, ho, hi, hsi, hsa⟩ := h.holds s hs
    refine ⟨id, i, (occupant_cancelAfter s b).trans ho, hi, ?_, ?_⟩
    · rw [Slot.cancelAfter]
      split <;> exact hsi
    · rw [Slot.cancelAfter]
      split <;> exact hsa
  · have ho : (w.map (Slot.cancelAfter b)).map Slot.occupant = w.map Slot.occupant := by
      rw [List.map_map]
      exact List.map_congr_left fun s _ => occupant_cancelAfter s b
    rw [ho]
    exact h.nodup

end Squash

end Sequenced

end OutOfOrder
