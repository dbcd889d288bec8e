import OutOfOrder.Fetch

/-!
The versions of the instructions of a program. In an orderly fetch they are numbered from zero, all of them
name their instruction and position, and the current one is the only one that is not squashed.
-/

set_option autoImplicit false

namespace OutOfOrder

namespace History

/-- `k` is the number of the version. -/
structure Numbered (h : History) (instr : Instruction) (position : Nat) : Prop where
  past : ∀ (k : Nat) (v : Instance), h.past[k]? = some v →
    v.instr = instr ∧ v.position = position ∧ v.version = k ∧ v.stage = .squashed
  current : h.current.instr = instr ∧ h.current.position = position ∧
    h.current.version = h.past.length ∧ h.current.stage ≠ .squashed

variable {h : History} {instr : Instruction} {position : Nat}

theorem version?_eq (h : History) (k : Nat) :
    h.version? k = if k = h.past.length then some h.current else h.past[k]? := by
  unfold version? versions
  rw [List.getElem?_append, List.getElem?_singleton]
  grind

theorem Numbered.fresh (instr : Instruction) (position : Nat) :
    (fresh instr position).Numbered instr position := by
  constructor <;> simp [History.fresh, Instance.fresh]

theorem Numbered.version? (hn : h.Numbered instr position) {k : Nat} {v : Instance}
    (hv : h.version? k = some v) : v.instr = instr ∧ v.position = position ∧ v.version = k := by
  rw [version?_eq] at hv
  split at hv
  · next hk =>
    obtain rfl := Option.some.inj hv
    obtain ⟨hi, hp, hver, _⟩ := hn.current
    exact ⟨hi, hp, hver.trans hk.symm⟩
  · obtain ⟨hi, hp, hver, _⟩ := hn.past k v hv
    exact ⟨hi, hp, hver⟩

theorem Numbered.renew (hn : h.Numbered instr position) : h.renew.Numbered instr position := by
  obtain ⟨hi, hp, hv, _⟩ := hn.current
  constructor
  · intro k v hk
    simp only [History.renew, List.getElem?_append, List.getElem?_singleton] at hk
    split at hk
    · exact hn.past k v hk
    · split at hk
      · next hlt hz =>
        obtain rfl := Option.some.inj hk
        exact ⟨hi, hp, by show h.current.version = k; omega, rfl⟩
      · simp at hk
  · simp [History.renew, Instance.fresh, hi, hp, hv]

end History

namespace Fetch

structure Orderly (f : Fetch) (code : List Instruction) : Prop where
  size_eq : f.histories.size = code.length
  numbered : ∀ (p : Nat) (h : History), f.histories[p]? = some h → ∃ i, code[p]? = some i ∧ h.Numbered i p

variable {f : Fetch} {code : List Instruction} {p : Nat} {v : Instance}

/-- The name of the current version at a position. -/
def idAt (f : Fetch) (p : Nat) : Option InstanceId := (f.current? p).map Instance.id

theorem orderly_ofCode (code : List Instruction) : (ofCode code).Orderly code := by
  constructor
  · simp [ofCode]
  · intro p h hp
    simp only [ofCode, List.getElem?_toArray, List.getElem?_map, List.getElem?_zipIdx,
      Option.map_map, Option.map_eq_some_iff] at hp
    obtain ⟨i, hi, rfl⟩ := hp
    exact ⟨i, hi, by simpa using History.Numbered.fresh i p⟩

theorem current?_ofCode (code : List Instruction) (p : Nat) :
    (ofCode code).current? p = code[p]?.map fun i => .fresh i p 0 := by
  simp [ofCode, current?, History.fresh, Function.comp_def]

theorem fresh_of_get?_ofCode {id : InstanceId} (hv : (ofCode code).get? id = some v) :
    ∃ i p, v = .fresh i p 0 := by
  obtain ⟨hist, hh, hv⟩ := Option.bind_eq_some_iff.1 hv
  simp only [ofCode, List.getElem?_toArray, List.getElem?_map, Option.map_eq_some_iff] at hh
  obtain ⟨⟨i, p⟩, -, rfl⟩ := hh
  rw [History.version?_eq] at hv
  split at hv
  · exact ⟨i, p, (Option.some.inj hv).symm⟩
  · simp [History.fresh] at hv

theorem exists_history (hv : f.current? p = some v) :
    ∃ h, f.histories[p]? = some h ∧ h.current = v := by
  simpa [current?] using hv

namespace Orderly

theorem exists_current (hf : f.Orderly code) (hp : p < code.length) : ∃ v, f.current? p = some v := by
  have hs := hf.size_eq
  have hlt : p < f.histories.size := by omega
  exact ⟨f.histories[p].current, by simp [current?, hlt]⟩

theorem lt_length (hf : f.Orderly code) (hv : f.current? p = some v) : p < code.length := by
  obtain ⟨h, hh, _⟩ := exists_history hv
  have hp := (Array.getElem?_eq_some_iff.1 hh).1
  have hs := hf.size_eq
  omega

theorem instr_current (hf : f.Orderly code) (hv : f.current? p = some v) : code[p]? = some v.instr := by
  obtain ⟨h, hh, rfl⟩ := exists_history hv
  obtain ⟨i, hi, hn⟩ := hf.numbered p h hh
  rw [hi, hn.current.1]

theorem position_current (hf : f.Orderly code) (hv : f.current? p = some v) : v.position = p := by
  obtain ⟨h, hh, rfl⟩ := exists_history hv
  obtain ⟨i, _, hn⟩ := hf.numbered p h hh
  exact hn.current.2.1

theorem stage_current (hf : f.Orderly code) (hv : f.current? p = some v) : v.stage ≠ .squashed := by
  obtain ⟨h, hh, rfl⟩ := exists_history hv
  obtain ⟨i, _, hn⟩ := hf.numbered p h hh
  exact hn.current.2.2.2

theorem get?_current (hf : f.Orderly code) (hv : f.current? p = some v) : f.get? v.id = some v := by
  have hp := hf.position_current hv
  obtain ⟨h, hh, rfl⟩ := exists_history hv
  obtain ⟨i, _, hn⟩ := hf.numbered p h hh
  simp [get?, Instance.id, hp, hh, History.version?_eq, hn.current.2.2.1]

/-- The version that a name stands for carries that name, and the instruction of its position. -/
theorem id_of_get? (hf : f.Orderly code) {id : InstanceId} (hv : f.get? id = some v) :
    v.id = id ∧ code[id.position]? = some v.instr := by
  obtain ⟨h, hh, hv⟩ := Option.bind_eq_some_iff.1 hv
  obtain ⟨i, hi, hn⟩ := hf.numbered id.position h hh
  obtain ⟨hvi, hvp, hvv⟩ := hn.version? hv
  exact ⟨by simp [Instance.id, hvp, hvv], by rw [hi, hvi]⟩

/-- Only the current version is not squashed. -/
theorem current_of_get? (hf : f.Orderly code) {id : InstanceId} (hv : f.get? id = some v)
    (hs : v.stage ≠ .squashed) : f.current? id.position = some v := by
  obtain ⟨h, hh, hv⟩ := Option.bind_eq_some_iff.1 hv
  obtain ⟨i, _, hn⟩ := hf.numbered id.position h hh
  rw [History.version?_eq] at hv
  split at hv
  · simpa [current?, hh] using hv
  · exact absurd (hn.past _ v hv).2.2.2 hs

end Orderly

/-! ### Moving the current version on -/

theorem get?_modify (f : Fetch) (id name : InstanceId) (g : Instance → Instance) :
    (f.modify id g).get? name = if id = name then (f.get? name).map g else f.get? name := by
  obtain ⟨p, v⟩ := id
  obtain ⟨q, w⟩ := name
  simp only [get?, modify, Array.getElem?_modify, InstanceId.mk.injEq]
  by_cases hp : p = q
  · subst hp
    cases f.histories[p]? with
    | none => simp
    | some h => simp [History.version?_modify]
  · simp [hp]

theorem current?_modify (hf : f.Orderly code) (hv : f.current? p = some v) (g : Instance → Instance)
    (q : Nat) : (f.modify v.id g).current? q = if q = p then some (g v) else f.current? q := by
  have hp := hf.position_current hv
  obtain ⟨h, hh, rfl⟩ := exists_history hv
  obtain ⟨i, _, hn⟩ := hf.numbered p h hh
  simp only [modify, current?, Instance.id, hp, Array.getElem?_modify, eq_comm (a := p)]
  split
  · next hq => simp [hq, hh, History.modify, hn.current.2.2.1]
  · rfl

theorem Orderly.modify (hf : f.Orderly code) (hv : f.current? p = some v) {g : Instance → Instance}
    (hg : (g v).id = v.id ∧ (g v).instr = v.instr) (hs : (g v).stage ≠ .squashed) :
    (f.modify v.id g).Orderly code := by
  have hp := hf.position_current hv
  obtain ⟨hid, hi⟩ := hg
  simp only [Instance.id, InstanceId.mk.injEq] at hid
  obtain ⟨h, hh, rfl⟩ := exists_history hv
  constructor
  · simpa [Fetch.modify] using hf.size_eq
  · intro q h' hq
    simp only [Fetch.modify, Instance.id, hp, Array.getElem?_modify] at hq
    split at hq
    · next hpq =>
      subst hpq
      obtain ⟨i, hcode, hn⟩ := hf.numbered p h hh
      obtain ⟨hci, hcp, hcv, _⟩ := hn.current
      have hm : h.modify h.current.version g = { h with current := g h.current } := by
        simp [History.modify, hcv]
      simp only [hh, Option.map_some, hm, Option.some.injEq] at hq
      subst hq
      exact ⟨i, hcode, hn.past, hi.trans hci, hid.1.trans hcp, hid.2.trans hcv, hs⟩
    · exact hf.numbered q h' hq

theorem Orderly.advance (hf : f.Orderly code) : f.advance.Orderly code := ⟨hf.size_eq, hf.numbered⟩

/-! ### Starting new versions -/

theorem current?_renewAfter (hf : f.Orderly code) (b q : Nat) :
    (f.renewAfter b).current? q = (f.current? q).map fun v =>
      if b < q ∧ v.stage ≠ .unissued then .fresh v.instr q (v.version + 1) else v := by
  simp only [renewAfter, current?, Array.getElem?_mapIdx, Option.map_map]
  cases hh : f.histories[q]? with
  | none => rfl
  | some h =>
    obtain ⟨i, _, hn⟩ := hf.numbered q h hh
    have hp := hn.current.2.1
    by_cases hb : b < q <;> by_cases hs : h.current.stage = .unissued <;>
      simp [History.inProgress, History.renew, hb, hs, hp]

theorem Orderly.renewAfter (hf : f.Orderly code) (b : Nat) : (f.renewAfter b).Orderly code := by
  constructor
  · simpa [Fetch.renewAfter] using hf.size_eq
  · intro q h' hq
    simp only [Fetch.renewAfter, Array.getElem?_mapIdx, Option.map_eq_some_iff] at hq
    obtain ⟨h, hh, rfl⟩ := hq
    obtain ⟨i, hi, hn⟩ := hf.numbered q h hh
    refine ⟨i, hi, ?_⟩
    split
    · exact hn.renew
    · exact hn

/-- A version stays, and is squashed if it was the current one of a position that is renewed. -/
theorem get?_renewAfter (hf : f.Orderly code) (b : Nat) {id : InstanceId} (hv : f.get? id = some v) :
    (f.renewAfter b).get? id = some
      (if b < id.position ∧ v.stage ≠ .squashed ∧ v.stage ≠ .unissued then { v with stage := .squashed }
        else v) := by
  obtain ⟨h, hh, hver⟩ := Option.bind_eq_some_iff.1 hv
  obtain ⟨i, _, hn⟩ := hf.numbered id.position h hh
  simp only [get?, Fetch.renewAfter, Array.getElem?_mapIdx, hh, Option.map_some, Option.bind_some]
  rw [History.version?_eq] at hver
  have hcur := hn.current.2.2.2
  split at hver
  · next hk =>
    obtain rfl := Option.some.inj hver
    by_cases hb : b < id.position <;> by_cases hs : h.current.stage = .unissued <;>
      simp [History.inProgress, History.renew, History.version?_eq, hb, hs, hk, hcur]
  · next hk =>
    have hsq := (hn.past _ v hver).2.2.2
    have hlt : id.version < h.past.length := (List.getElem?_eq_some_iff.1 hver).1
    have hne : id.version ≠ h.past.length + 1 := by omega
    simp only [hsq, ne_eq, not_true_eq_false, false_and, and_false, if_false]
    split
    · simp [History.renew, History.version?_eq, hne, List.getElem?_append_left hlt, hver]
    · simp [History.version?_eq, hk, hver]

/-- What was not there before has just been started. -/
theorem fresh_of_get?_renewAfter (hf : f.Orderly code) {b : Nat} {id : InstanceId} (hnone : f.get? id = none)
    (hv : (f.renewAfter b).get? id = some v) : ∃ i, v = .fresh i id.position id.version := by
  simp only [get?, Fetch.renewAfter, Array.getElem?_mapIdx, Option.bind_map, Option.bind_eq_some_iff,
    Function.comp_apply] at hv
  obtain ⟨h, hh, hv⟩ := hv
  obtain ⟨i, _, hn⟩ := hf.numbered id.position h hh
  rw [get?, hh, Option.bind_some] at hnone
  split at hv
  · rw [History.version?, History.versions_renew] at hv
    have hlt := (List.getElem?_eq_some_iff.1 hv).1
    simp only [History.version?, History.versions, List.getElem?_eq_none_iff, List.length_append,
      List.length_cons, List.length_nil] at hnone hlt
    obtain ⟨hi, hp, hversion, -⟩ := hn.current
    have hlast : id.version = h.past.length + 1 := by omega
    rw [hlast, List.getElem?_append_right (by omega)] at hv
    simp only [Nat.add_sub_cancel_left, List.getElem?_cons_succ, List.getElem?_cons_zero,
      Option.some.injEq] at hv
    exact ⟨i, by rw [← hv, hi, hp, hversion, hlast]⟩
  · rw [hnone] at hv
    simp at hv

/-- Of what comes after a position, the versions below the cursor are those that have been issued. -/
theorem issuedAfter_eq (hf : f.Orderly code)
    (hbelow : ∀ q v, q < f.pc → f.current? q = some v → v.stage ≠ .unissued)
    (habove : ∀ q v, f.pc ≤ q → f.current? q = some v → v.stage = .unissued) (b : Nat) :
    (f.issuedAfter b).map some = (List.range' (b + 1) (min f.pc code.length - (b + 1))).map f.idAt := by
  have hs := hf.size_eq
  have hlen : f.histories.toList.length = code.length := by simpa using hs
  have hcur : ∀ q h, f.histories.toList[q]? = some h → f.current? q = some h.current := by
    intro q h hq
    rw [Array.getElem?_toList] at hq
    simp [current?, hq]
  let n := min f.pc code.length - (b + 1)
  have hsplit := List.take_append_drop n (f.histories.toList.drop (b + 1))
  have hissued : ((f.histories.toList.drop (b + 1)).take n).filter History.inProgress =
      (f.histories.toList.drop (b + 1)).take n := by
    rw [List.filter_eq_self]
    intro h hm
    obtain ⟨k, hk⟩ := List.mem_iff_getElem?.1 hm
    rw [List.getElem?_take] at hk
    split at hk
    · rw [List.getElem?_drop] at hk
      simpa [History.inProgress] using hbelow _ _ (by omega) (hcur _ _ hk)
    · simp at hk
  have hwaiting : ((f.histories.toList.drop (b + 1)).drop n).filter History.inProgress = [] := by
    rw [List.filter_eq_nil_iff]
    intro h hm
    obtain ⟨k, hk⟩ := List.mem_iff_getElem?.1 hm
    rw [List.getElem?_drop, List.getElem?_drop] at hk
    have hlt := (List.getElem?_eq_some_iff.1 hk).1
    simpa [History.inProgress] using habove _ _ (by omega) (hcur _ _ hk)
  rw [issuedAfter, ← hsplit, List.filter_append, hissued, hwaiting, List.append_nil]
  apply List.ext_getElem?
  intro k
  simp only [List.getElem?_map, List.getElem?_take, List.getElem?_drop, Option.map_map]
  by_cases hk : k < n
  · have hlt : b + 1 + k < f.histories.size := by omega
    have hm : k < min f.pc code.length - (b + 1) := hk
    simp [hk, hm, idAt, current?, Array.getElem?_eq_getElem hlt]
  · have hm : ¬k < min f.pc code.length - (b + 1) := hk
    simp [hk, hm]

end Fetch

end OutOfOrder
