import OutOfOrder.Proofs.Correspondence

/-!
The alias table, which issue, commit and a taken branch change a little each, and the physical registers say
the same of an operand as a search of the reorder buffer.
-/

set_option autoImplicit false

namespace OutOfOrder

namespace PhysicalFile

variable {f f' : PhysicalFile} {tag q : Tag} {value : Word}

theorem get_of_write {values : Array Word} (h : writeAt f.values tag.index.toNat value = .ok values)
    (free : List Tag) :
    (⟨free, values⟩ : PhysicalFile).get q = if q = tag then .ok value else f.get q := by
  unfold writeAt at h
  split at h
  · next hlt =>
    obtain rfl := Except.ok.inj h
    have hq : q.index.toNat = tag.index.toNat ↔ q = tag := by
      rw [UInt16.toNat_inj]
      cases q
      cases tag
      simp
    by_cases he : q = tag
    · subst he
      rw [if_pos rfl, get, readAt_eq_ok_iff]
      simp [hlt]
    · have hne : tag.index.toNat ≠ q.index.toNat := fun hn => he (hq.1 hn.symm)
      simp only [if_neg he, get, readAt, Array.size_set]
      split
      · rw [Array.getElem_set_ne _ _ hne]
      · rfl
  · simp at h

theorem get_set (h : f.set tag value = .ok f') (q : Tag) :
    f'.get q = if q = tag then .ok value else f.get q := by
  rw [set, map_eq_ok_iff] at h
  obtain ⟨values, hw, rfl⟩ := h
  exact get_of_write hw f.free

theorem get_release (h : f.release tag = .ok f') (hq : q ≠ tag) : f'.get q = f.get q := by
  rw [release, map_eq_ok_iff] at h
  obtain ⟨values, hw, rfl⟩ := h
  rw [get_of_write hw, if_neg hq]

theorem get_allocate (h : f.allocate = some (tag, f')) (q : Tag) : f'.get q = f.get q := by
  unfold allocate at h
  split at h
  · simp at h
  · obtain ⟨-, rfl⟩ := Prod.mk.inj (Option.some.inj h)
    rfl

end PhysicalFile

theorem lastWriter_eq_none_iff {w : List Slot} {r : Register} :
    lastWriter w r = none ↔ ∀ s ∈ w, s.writes r = false := by
  simp [lastWriter]

theorem lastWriter_last {w : List Slot} {r : Register} {s : Slot} (h : lastWriter w r = some s) :
    ∃ k, w[k]? = some s ∧ ∀ (j : Nat) (t : Slot), w[j]? = some t → t.writes r = true → j ≤ k := by
  induction w with
  | nil => simp [lastWriter] at h
  | cons x rest ih =>
    rw [lastWriter_cons] at h
    cases hrest : lastWriter rest r with
    | some y =>
      rw [hrest] at h
      obtain ⟨k, hk, hlast⟩ := ih (hrest.trans h)
      refine ⟨k + 1, hk, fun j t hj hw => ?_⟩
      cases j with
      | zero => omega
      | succ j => exact Nat.succ_le_succ (hlast j t hj hw)
    | none =>
      have hx : x = s := by
        rw [hrest] at h
        change (if x.writes r = true then some x else none) = some s at h
        split at h
        · exact Option.some.inj h
        · simp at h
      refine ⟨0, congrArg some hx, fun j t hj hw => ?_⟩
      cases j with
      | zero => exact Nat.le_refl 0
      | succ j =>
        have hnone := lastWriter_eq_none_iff.1 hrest t (List.mem_of_getElem? hj)
        simp [hnone] at hw

/-- For each register the table has the tag of its last writer. -/
def Aliased (w : List Slot) (t : AliasTable) : Prop :=
  ∀ r, t.get? r = (lastWriter w r).bind Slot.tag

namespace Aliased

variable {w rest : List Slot} {t t' : AliasTable} {s : Slot} {tag : Tag}

theorem map (h : Aliased w t) {u : Slot → Slot} (hu : ∀ s ∈ w, s.SameRole (u s)) :
    Aliased (w.map u) t := by
  intro r
  rw [h r, lastWriter_map fun s hs => (hu s hs).writes r, Option.bind_map]
  refine Option.bind_congr fun s hs => ?_
  exact ((hu s (mem_of_lastWriter hs).1).tag).symm

theorem issue (h : Aliased w t) (hl : s.isLive = true) (ht : s.tag = some tag)
    (hget : ∀ r, t'.get? r = if s.arch = some r then some tag else t.get? r) : Aliased (w ++ [s]) t' := by
  intro r
  have hw : s.writes r = true ↔ s.arch = some r := by simp [Slot.writes, hl]
  rw [hget, lastWriter_concat]
  by_cases ha : s.arch = some r
  · rw [if_pos ha, if_pos (hw.2 ha), Option.bind_some, ht]
  · rw [if_neg ha, if_neg (mt hw.1 ha), h r]

/-- The alias of the head's register goes, unless a younger slot writes the register too. -/
theorem commit (h : Aliased (s :: rest) t) (ht : s.tag = some tag) (hl : s.isLive = true)
    (hothers : ∀ x ∈ rest, x.tag ≠ some tag)
    (hget : ∀ r, t'.get? r = if s.arch = some r ∧ t.get? r = some tag then none else t.get? r) :
    Aliased rest t' := by
  intro r
  have hw : s.writes r = true ↔ s.arch = some r := by simp [Slot.writes, hl]
  have hr := h r
  rw [lastWriter_cons] at hr
  cases hrest : lastWriter rest r with
  | some x =>
    rw [hrest] at hr
    change t.get? r = x.tag at hr
    have hne : t.get? r ≠ some tag := by
      rw [hr]
      exact hothers x (mem_of_lastWriter hrest).1
    rw [hget, if_neg fun hboth => hne hboth.2, hr, Option.bind_some]
  | none =>
    rw [hrest] at hr
    change t.get? r = (if s.writes r = true then some s else none).bind Slot.tag at hr
    by_cases ha : s.arch = some r
    · rw [if_pos (hw.2 ha), Option.bind_some, ht] at hr
      rw [hget, if_pos ⟨ha, hr⟩]
      rfl
    · rw [if_neg (mt hw.1 ha)] at hr
      rw [hget, if_neg fun hboth => ha hboth.1, hr]

theorem discard (h : Aliased (s :: rest) t) (hl : s.isLive = false) : Aliased rest t := by
  intro r
  rw [h r, lastWriter_cons, if_neg (by simp [Slot.writes, hl])]
  cases lastWriter rest r <;> rfl

/-- Only registers of cancelled slots have to be looked up again. -/
theorem squash (h : Aliased w t) {b : Nat} (touched : Register → Prop)
    (htouched : ∀ s ∈ w, s.isAfter b = true → ∀ r, s.arch = some r → touched r)
    (hnew : ∀ r, touched r → t'.get? r = (lastWriter (w.map (Slot.cancelAfter b)) r).bind Slot.tag)
    (hold : ∀ r, ¬touched r → t'.get? r = t.get? r) : Aliased (w.map (Slot.cancelAfter b)) t' := by
  intro r
  by_cases hr : touched r
  · exact hnew r hr
  · have hkeep : ∀ s ∈ w, (s.cancelAfter b).writes r = s.writes r := by
      intro s hs
      by_cases ha : s.isAfter b = true
      · have hne : (s.arch == some r) = false := beq_eq_false_iff_ne.2 fun harch => hr (htouched s hs ha r harch)
        rw [Slot.writes, Slot.writes, Slot.arch_cancelAfter, hne, Bool.and_false, Bool.and_false]
      · rw [Slot.cancelAfter_of_isAfter_eq_false (by simpa using ha)]
    rw [hold r hr, h r, lastWriter_map hkeep, Option.bind_map]
    exact Option.bind_congr fun s _ => (s.tag_cancelAfter b).symm

end Aliased

/-- A result that has arrived at a slot is in the slot's physical register too. -/
def Stored (w : List Slot) (f : PhysicalFile) : Prop :=
  ∀ s ∈ w, s.ready = true → ∀ tag, s.tag = some tag → ∃ value, s.result = some value ∧ f.get tag = .ok value

namespace Stored

variable {w w' : List Slot} {f f' : PhysicalFile} {tag : Tag}

/-- Whatever touches only registers of slots without a result. -/
theorem of_get (h : Stored w f)
    (hget : ∀ s ∈ w, s.ready = true → ∀ q, s.tag = some q → f'.get q = f.get q) : Stored w f' := by
  intro s hs hr q hq
  rw [hget s hs hr q hq]
  exact h s hs hr q hq

theorem map (h : Stored w f) {u : Slot → Slot} (hu : ∀ s ∈ w, (u s).tag = s.tag)
    (hr : ∀ s ∈ w, (u s).ready = true → s.ready = true ∧ (u s).result = s.result) : Stored (w.map u) f := by
  intro s' hs' hready q hq
  obtain ⟨s, hs, rfl⟩ := List.mem_map.1 hs'
  obtain ⟨hold, hresult⟩ := hr s hs hready
  rw [hresult]
  exact h s hs hold q ((hu s hs).symm.trans hq)

theorem deliver (h : Stored w f) {u : Slot → Slot} {result : Word} (ha : Arrives w tag result u)
    (hset : f.set tag result = .ok f') : Stored (w.map u) f' := by
  intro s' hs' hready q hq
  obtain ⟨s, hs, rfl⟩ := List.mem_map.1 hs'
  rw [(ha.sameRole s hs).tag] at hq
  rw [PhysicalFile.get_set hset]
  by_cases ht : s.tag = some tag
  · obtain rfl : q = tag := Option.some.inj (hq.symm.trans ht)
    exact ⟨result, (ha.here s hs ht).2.2, if_pos rfl⟩
  · have hne : q ≠ tag := fun he => ht (he ▸ hq)
    obtain ⟨hsame, hresult⟩ := ha.elsewhere s hs ht
    rw [hsame] at hready
    rw [if_neg hne, hresult]
    exact h s hs hready q hq

theorem append (h : Stored w f) {s : Slot} (hs : s.ready = false) : Stored (w ++ [s]) f := by
  intro t ht hready
  rcases List.mem_append.1 ht with ht | ht
  · exact h t ht hready
  · rw [List.mem_singleton.1 ht, hs] at hready
    simp at hready

theorem release (h : Stored w f) (hsub : w' ⊆ w) (hothers : ∀ s ∈ w', s.tag ≠ some tag)
    (hr : f.release tag = .ok f') : Stored w' f' := by
  intro s hs hready q hq
  have hne : q ≠ tag := fun he => hothers s hs (he ▸ hq)
  rw [PhysicalFile.get_release hr hne]
  exact h s (hsub hs) hready q hq

end Stored

namespace Machine

variable {code : List Instruction} {m m' : Machine} {r : Register}

/-! ### What the moves do to the table -/

theorem cancel_aliases (m : Machine) (id : InstanceId) : (m.cancel id).aliases = m.aliases := by
  unfold cancel
  cases m.rob.slotOf id with
  | none => rfl
  | some i =>
    dsimp only [record]
    split
    · unfold releaseTag
      split <;> rfl
    · rfl

theorem realias_eq (m : Machine) (r : Register) : (m.realias r).rob = m.rob ∧
    ∀ q, (m.realias r).aliases.get? q =
      if r = q then (m.rob.youngestWriter q).bind fun i => m.rob.slots[i]?.bind (·.tag)
      else m.aliases.get? q := by
  unfold realias
  split
  · next tag ht =>
    refine ⟨rfl, fun q => ?_⟩
    rw [AliasTable.get?_insert]
    split
    · next hq => rw [← hq, ht]
    · rfl
  · next ht =>
    refine ⟨rfl, fun q => ?_⟩
    rw [AliasTable.get?_erase]
    split
    · next hq => rw [← hq, ht]
    · rfl

/-- Looking registers up again, in whatever order and however often. -/
theorem foldl_realias_eq (m : Machine) (rs : List Register) : (rs.foldl realias m).rob = m.rob ∧
    ∀ q, (rs.foldl realias m).aliases.get? q =
      if q ∈ rs then (m.rob.youngestWriter q).bind fun i => m.rob.slots[i]?.bind (·.tag)
      else m.aliases.get? q := by
  induction rs generalizing m with
  | nil => exact ⟨rfl, fun q => (if_neg List.not_mem_nil).symm⟩
  | cons r rest ih =>
    obtain ⟨hrob, hget⟩ := realias_eq m r
    obtain ⟨hrobs, hgets⟩ := ih (m.realias r)
    refine ⟨hrobs.trans hrob, fun q => ?_⟩
    rw [List.foldl_cons, hgets, hget, hrob]
    by_cases hq : q ∈ rest
    · rw [if_pos hq, if_pos (List.mem_cons_of_mem r hq)]
    · by_cases hrq : r = q
      · rw [if_neg hq, if_pos hrq, if_pos (List.mem_cons.2 (.inl hrq.symm))]
      · have hnot : q ∉ r :: rest := by
          rw [List.mem_cons]
          rintro (he | he)
          · exact hrq he.symm
          · exact hq he
        rw [if_neg hq, if_neg hrq, if_neg hnot]

theorem squashYounger_aliases (m : Machine) (b : Nat) (q : Register) :
    (m.squashYounger b).aliases.get? q =
      if q ∈ (m.fetch.issuedAfter b).filterMap m.renamedBy then
        ((m.squashYounger b).rob.youngestWriter q).bind fun i => (m.squashYounger b).rob.slots[i]?.bind (·.tag)
      else m.aliases.get? q := by
  let cancelled := (m.fetch.issuedAfter b).foldl cancel { m with fetch := m.fetch.renewAfter b }
  have hkeep : cancelled.aliases = m.aliases :=
    List.foldlRecOn (motive := fun n : Machine => n.aliases = m.aliases) _ _ rfl
      fun n hn id _ => (cancel_aliases n id).trans hn
  obtain ⟨hrob, hget⟩ := foldl_realias_eq cancelled ((m.fetch.issuedAfter b).filterMap m.renamedBy)
  rw [hkeep] at hget
  show (((m.fetch.issuedAfter b).filterMap m.renamedBy).foldl realias cancelled).aliases.get? q = _
  rw [hget]
  show _ = if _ then ((((m.fetch.issuedAfter b).filterMap m.renamedBy).foldl realias
    cancelled).rob.youngestWriter q).bind _ else _
  rw [← hrob]
  rfl

theorem dispatch_renames {v : Instance} {i : Nat} {left : Operand} {right : Option Operand} {tag : Tag}
    (h : m.dispatch v i left right tag = .ok m') :
    (∀ q, m'.aliases.get? q = if v.instr.dest = some q then some tag else m.aliases.get? q) ∧
      ∀ q, q ≠ tag → m'.physical.get q = m.physical.get q := by
  simp only [dispatch, bind_eq_ok_iff, guarded_eq_ok_iff, pure_eq_ok_iff] at h
  obtain ⟨⟨slot, claimed⟩, -, renamed, hr, st, -, rfl⟩ := h
  simp only [record, promote_aliases, promote_physical]
  unfold rename at hr
  cases hdest : v.instr.dest with
  | none =>
    rw [hdest] at hr
    obtain rfl := Except.ok.inj hr
    exact ⟨fun q => rfl, fun q _ => rfl⟩
  | some r =>
    simp only [hdest, bind_eq_ok_iff, pure_eq_ok_iff] at hr
    obtain ⟨value, -, physical, hset, rfl⟩ := hr
    refine ⟨fun q => ?_, fun q hq => ?_⟩
    · dsimp only
      rw [AliasTable.get?_insert]
      simp [modifySlot]
    · dsimp only
      rw [PhysicalFile.get_set hset, if_neg hq]
      rfl

theorem commitHead_aliases {s : Slot} {tag : Tag} (ht : s.tag = some tag) (h : m.commitHead s = .ok m')
    (q : Register) : m'.aliases.get? q =
      if s.arch = some q ∧ m.aliases.get? q = some tag then none else m.aliases.get? q := by
  simp only [commitHead, bind_eq_ok_iff, pure_eq_ok_iff] at h
  obtain ⟨published, hp, retired, hr, rfl⟩ := h
  have hretired : retired.aliases = published.aliases := by
    simp only [retire, ht, bind_eq_ok_iff, pure_eq_ok_iff] at hr
    obtain ⟨-, -, physical, -, rfl⟩ := hr
    rfl
  show retired.aliases.get? q = _
  rw [hretired]
  unfold publish at hp
  cases ha : s.arch with
  | none =>
    simp only [ha] at hp
    obtain rfl := Except.ok.inj hp
    simp [modifySlot]
  | some r =>
    simp only [ha, ht, bind_eq_ok_iff, pure_eq_ok_iff] at hp
    obtain ⟨registers, -, rfl⟩ := hp
    simp only [promote_aliases, modifySlot, AliasTable.eraseIf, Option.some.injEq]
    by_cases hrq : r = q
    · subst hrq
      by_cases htag : m.aliases.get? r = some tag
      · simp [htag, AliasTable.get?_erase]
      · simp [htag]
    · by_cases htag : m.aliases.get? r = some tag
      · simp [htag, AliasTable.get?_erase, hrq]
      · simp [htag, hrq]

/-- What the table and the physical registers say agrees with the slots in flight. -/
structure Named (m : Machine) : Prop where
  aliased : Aliased m.rob.window m.aliases
  stored : Stored m.rob.window m.physical

namespace Named

theorem of_core (h : m.Named) (hs : SameCore m m') : m'.Named where
  aliased := by rw [hs.rob, hs.aliases]; exact h.aliased
  stored := by rw [hs.rob, hs.physical]; exact h.stored

/-- A slot gets ahead. -/
theorem progress (h : m.Named) {k : Nat} {s : Slot} {v : Instance} {g : Slot → Slot} {rob : ReorderBuffer}
    (done : m.Progresses k s v g rob) (hrob : m'.rob = rob) (haliases : m'.aliases = m.aliases)
    (hphysical : m'.physical = m.physical) : m'.Named where
  aliased := by
    rw [hrob, haliases, done.window]
    exact h.aliased.map done.roles
  stored := by
    rw [hrob, hphysical, done.window]
    refine h.stored.map (fun t ht => (done.roles t ht).tag) fun t ht hready => ?_
    rw [(done.same t ht).1] at hready
    exact ⟨hready, (done.same t ht).2⟩

theorem retire (h : m.Named) (hcoh : Coherent code m) {s : Slot} {rest : List Slot} {tag : Tag}
    {rob : ReorderBuffer} {physical : PhysicalFile} (done : m.Retires s rest tag rob physical) :
    (∀ x ∈ rest, x.tag ≠ some tag) ∧ Stored rob.window physical := by
  have hothers : ∀ x ∈ rest, x.tag ≠ some tag := by
    have hnodup := hcoh.nodup_tags
    rw [done.head, List.map_cons, List.nodup_cons, done.named] at hnodup
    exact fun x hx he => hnodup.1 (he ▸ List.mem_map_of_mem hx)
  refine ⟨hothers, ?_⟩
  rw [done.window]
  refine h.stored.release (fun x hx => ?_) hothers done.released
  rw [done.head]
  exact List.mem_cons_of_mem s hx

theorem squash (h : m.Named) (hcoh : Coherent code m) {s : Slot} {id : InstanceId} {instr : Instruction}
    (slot : s ∈ m.rob.window) (live : s.isLive = true) (occupant : s.occupant = some id)
    (holds : s.instr = some instr) (branch : instr.opcode.isBranch = true) :
    (m.squashYounger id.position).Named := by
  have hcoh' : Coherent code (m.squashYounger id.position) :=
    hcoh.move (.squash slot live occupant holds branch)
  have hget := m.squashYounger_aliases id.position
  obtain ⟨v, rob, stations, events, aliases, rfl, done, heq⟩ :=
    hcoh.squashes slot live occupant holds branch
  have hyoungest := hcoh'.ring.youngestWriter_eq hcoh'.aged
  have hwindow : (m.squashYounger v.id.position).rob.window =
      m.rob.window.map (Slot.cancelAfter v.id.position) := by
    rw [heq]
    exact done.window
  have hphysical : (m.squashYounger v.id.position).physical = m.physical := by rw [heq]
  constructor
  · rw [hwindow]
    -- the registers were gathered from the slots as they were, and are looked up among those that are left
    refine h.aliased.squash (· ∈ (m.fetch.issuedAfter v.id.position).filterMap m.renamedBy)
      (fun t ht hafter r ha => ?_) (fun r hr => ?_) fun r hr => ?_
    · obtain ⟨id, hid, hto⟩ := List.mem_map.1 ((hcoh.order.mem_issuedAfter_iff done.uncommitted ht).2 hafter)
      refine List.mem_filterMap.2 ⟨id, hid, ?_⟩
      obtain ⟨k, hk⟩ := List.mem_iff_getElem?.1 ht
      simp [renamedBy, hcoh.slotOf_eq hk hto.symm, hcoh.ring.getElem?_slots hk, ha]
    · rw [hget, if_pos hr, ← hwindow, ← hyoungest, Option.bind_assoc]
    · rw [hget, if_neg hr]
  · rw [hwindow, hphysical]
    refine h.stored.map (fun t _ => t.tag_cancelAfter _) fun t _ hready => ?_
    unfold Slot.cancelAfter at hready ⊢
    split at hready
    · simp at hready
    · next hafter =>
      rw [if_neg hafter]
      exact ⟨hready, rfl⟩

theorem issue (h : m.Named) (hcoh : Coherent code m) {v : Instance} {i : Nat} {left : Operand}
    {right : Option Operand} {tag : Tag} {allocated : PhysicalFile} (next : m.fetch.next? = some v)
    (station : m.stations.idleIn v.instr.opcode.unit = some i)
    (operands : m.operands v.instr = .ok (left, right))
    (register : m.physical.allocate = some (tag, allocated))
    (dispatched : Machine.dispatch { m with physical := allocated } v i left right tag = .ok m') :
    m'.Named := by
  obtain ⟨haliases, hphysical⟩ := dispatch_renames dispatched
  obtain ⟨st, rob, physical, aliases, done, rfl⟩ := hcoh.issues next station operands register dispatched
  constructor
  · dsimp only at haliases ⊢
    rw [done.window]
    exact h.aliased.issue rfl rfl haliases
  · dsimp only at hphysical ⊢
    rw [done.window]
    refine Stored.append (h.stored.of_get fun s hs _ q hq => ?_) rfl
    have hne : q ≠ tag := fun he => hcoh.tags.fresh hcoh.count_le register hs (he ▸ hq)
    rw [hphysical q hne, PhysicalFile.get_allocate register]

theorem commit (h : m.Named) (hcoh : Coherent code m) {s : Slot} {rest : List Slot}
    (head : m.rob.window = s :: rest) (live : s.isLive = true) (may : m.mayCommit s = true)
    (committed : m.commitHead s = .ok m') : m'.Named := by
  obtain ⟨v, tag, rob, physical, aliases, done, heq⟩ := hcoh.commits head live may committed
  have haliases := commitHead_aliases done.named committed
  rw [heq] at haliases ⊢
  obtain ⟨hothers, hstored⟩ := h.retire hcoh done.toRetires
  have haliased := h.aliased
  rw [head] at haliased
  refine ⟨?_, hstored⟩
  dsimp only at haliases ⊢
  rw [done.window]
  exact haliased.commit done.named live hothers haliases

theorem move (h : m.Named) (hcoh : Coherent code m) {d : List Deed} (hm : m.Move d m') : m'.Named := by
  cases hm with
  | compute station busy done opcode dest slot named occupant result delivered =>
    obtain ⟨v, memory, rob, physical, rfl, done, rfl⟩ :=
      hcoh.computes station busy done opcode dest slot named occupant result delivered
    constructor
    · dsimp only
      rw [done.window]
      exact h.aliased.map done.arrives.sameRole
    · dsimp only
      rw [done.window]
      exact h.stored.deliver done.arrives done.written
  | squash slot live occupant holds branch => exact h.squash hcoh slot live occupant holds branch
  | @start i k st s name station busy slot named =>
    obtain ⟨v, ha⟩ := hcoh.awaits slot (hcoh.pending_of_busy station busy slot named).1
    have done := hcoh.progresses ha (g := Slot.started m.cycle) (fun _ => rfl) (s.started_sameRole _ ha.isLive)
      fun _ => ⟨rfl, rfl⟩
    rw [Machine.startExecution_eq]
    split
    · exact h.progress done rfl rfl rfl
    · exact h
  | @complete i k st s name shown station busy ready last slot named =>
    obtain ⟨v, ha⟩ := hcoh.awaits slot (hcoh.pending_of_busy station busy slot named).1
    have done := hcoh.progresses ha (g := Slot.executed m.cycle) (fun _ => rfl) (s.executed_sameRole _)
      fun _ => ⟨rfl, rfl⟩
    have heq := Machine.completeExecution_eq (m := m.countdown i) hcoh.ring slot ha.occupant name shown
    rw [show m.rob.place k = (m.countdown i).rob.place k from rfl, heq]
    exact h.progress done rfl rfl rfl
  | issue next station operands register dispatched =>
    exact h.issue hcoh next station operands register dispatched
  | commit head live may committed => exact h.commit hcoh head live may committed
  | discard head dead retired =>
    obtain ⟨tag, rob, physical, done, rfl⟩ := hcoh.discards head retired
    obtain ⟨-, hstored⟩ := h.retire hcoh done
    have haliased := h.aliased
    rw [head] at haliased
    refine ⟨?_, hstored⟩
    show Aliased rob.window m.aliases
    rw [done.window]
    exact haliased.discard dead
  | wait => exact ⟨h.aliased, h.stored⟩
  | countdown => exact ⟨h.aliased, h.stored⟩
  | stall => exact ⟨h.aliased, h.stored⟩

end Named

/-! ### The operand that the table names -/

/-- Looks a register up in the alias table, and its alias in the physical registers once the result is
there. -/
def aliasedOperand (m : Machine) (r : Register) : Except Breach Operand :=
  match m.aliases.get? r with
  | none => (m.registers.get r).map .resolved
  | some tag =>
    if (m.rob.slotFor tag).any fun i => m.rob.slots[i]?.any (·.ready) then
      (m.physical.get tag).map .resolved
    else .ok (.pending tag)

/-- No slot behind this one writes the register, and those before it that do hold earlier positions. -/
structure LastToWrite (m : Machine) (r : Register) (k : Nat) (s : Slot) : Prop where
  slot : m.rob.window[k]? = some s
  live : s.isLive = true
  arch : s.arch = some r
  behind : ∀ (j : Nat) (t : Slot), m.rob.window[j]? = some t → t.isLive = true → t.arch = some r → j ≠ k →
    j < k ∧ ∃ a b, t.occupant = some a ∧ s.occupant = some b ∧ a.position < b.position

end Machine

namespace Coherent

variable {code : List Instruction} {m : Machine} {r : Register} {s : Slot}

theorem lastToWrite (h : Coherent code m) (hw : lastWriter m.rob.window r = some s) :
    ∃ k, m.LastToWrite r k s ∧ m.rob.youngestWriter r = some (m.rob.place k) := by
  obtain ⟨hs, hwrites⟩ := mem_of_lastWriter hw
  rw [Slot.writes, Bool.and_eq_true, beq_iff_eq] at hwrites
  obtain ⟨k, hk, hlast⟩ := lastWriter_last hw
  refine ⟨k, ⟨hk, hwrites.1, hwrites.2, fun j t hj hl ha hjk => ?_⟩, ?_⟩
  · have hle := hlast j t hj (by simp [Slot.writes, hl, ha])
    have hlt : j < k := by omega
    obtain ⟨a, -, hto, -⟩ := h.order.holds t (List.mem_of_getElem? hj)
    obtain ⟨b, -, hso, -⟩ := h.order.holds s hs
    obtain ⟨hjw, hjt⟩ := List.getElem?_eq_some_iff.1 hj
    obtain ⟨hkw, hks⟩ := List.getElem?_eq_some_iff.1 hk
    have hpair := List.pairwise_iff_getElem.1 h.order.pairwise_live j k hjw hkw hlt
    rw [hjt, hks] at hpair
    exact ⟨hlt, a, b, hto, hso, hpair hl hwrites.1 a b hto hso⟩
  · have hyoungest := h.ring.youngestWriter_eq h.aged r
    rw [hw] at hyoungest
    obtain ⟨i, hi, hslot⟩ := Option.bind_eq_some_iff.1 hyoungest
    obtain ⟨j, rfl, hj⟩ := h.exists_place_of_busy hslot (h.ring.busy_of_mem hs)
    rw [hi, h.index_of_tag hj hk rfl]

theorem lastWriter_isSome_iff (h : Coherent code m) : (lastWriter m.rob.window r).isSome = true ↔
    ∃ (i : Nat) (slot : Slot), m.rob.slots[i]? = some slot ∧ slot.busy = true ∧ slot.isLive = true ∧
      slot.arch = some r := by
  constructor
  · intro hsome
    obtain ⟨s, hs⟩ := Option.isSome_iff_exists.1 hsome
    obtain ⟨k, hlast, -⟩ := h.lastToWrite hs
    exact ⟨_, s, h.ring.getElem?_slots hlast.slot, h.ring.busy_of_mem (List.mem_of_getElem? hlast.slot),
      hlast.live, hlast.arch⟩
  · rintro ⟨i, slot, hi, hb, hl, ha⟩
    obtain ⟨k, -, hk⟩ := h.exists_place_of_busy hi hb
    rw [Option.isSome_iff_ne_none]
    intro hnone
    have hno := lastWriter_eq_none_iff.1 hnone slot (List.mem_of_getElem? hk)
    simp [Slot.writes, hl, ha] at hno

/-- The search of the buffer and the look-up in the table come to the same operand. -/
theorem operandFor_eq_aliased (h : Coherent code m) (hn : m.Named) (r : Register) :
    m.operandFor r = m.aliasedOperand r := by
  have hget := hn.aliased r
  unfold Machine.operandFor Machine.aliasedOperand
  rw [h.ring.youngestWriter_eq h.aged r, hget]
  cases hw : lastWriter m.rob.window r with
  | none => rfl
  | some s =>
    obtain ⟨hs, -⟩ := mem_of_lastWriter hw
    obtain ⟨tag, ht⟩ := Option.isSome_iff_exists.1 (h.tags.isSome hs)
    obtain ⟨k, hk⟩ := List.mem_iff_getElem?.1 hs
    have hready : ((m.rob.slotFor tag).any fun i => m.rob.slots[i]?.any (·.ready)) = s.ready := by
      rw [h.slotFor_eq hk ht, Option.any_some, h.ring.getElem?_slots hk, Option.any_some]
    simp only [Option.bind_some, ht, hready]
    cases hr : s.ready with
    | false => rfl
    | true =>
      obtain ⟨value, hvalue, hphysical⟩ := hn.stored s hs hr tag ht
      rw [hvalue, hphysical]
      rfl

end Coherent

theorem Machine.Named.initial {config : Config} {code : List Instruction} {m : Machine}
    (hc : config.Admitted) (h : Machine.initial config code = .ok m) : m.Named := by
  have hempty := (Machine.fresh_of_initial hc h).window
  obtain ⟨rob, -, rfl⟩ := Machine.initial_eq h
  constructor
  · rw [hempty, (Machine.sameCore_settle _).aliases]
    exact fun r => AliasTable.get?_empty r
  · rw [hempty]
    exact fun s hs => absurd hs List.not_mem_nil

theorem Session.Reached.named {config : Config} {code : List Instruction} {trace : List Deed} {s : Session}
    (hc : config.Admitted) (h : Session.Reached config code trace s) : s.machine.Named :=
  h.keeps hc (fun _ m => m.Named) (fun _ hm => .initial hc hm) (fun _ _ _ hs hn => hn.of_core hs)
    fun _ _ _ _ hcoh hn hm => hn.move hcoh hm

/-- A register has an alias exactly when a slot in flight that was not cancelled writes it. The alias is then
the tag of the last of these slots, in the ring and in the program, which is the one that the search by issue
cycle finds; and an operand taken from there is the one that the table leads to. -/
theorem aliases_name_latest_writers {config : Config} {code : List Instruction} {trace : List Deed}
    {s : Session} (hc : config.Admitted) (h : Session.Reached config code trace s) (r : Register) :
    let m := s.machine
    ((m.aliases.get? r).isSome = true ↔ ∃ (i : Nat) (slot : Slot), m.rob.slots[i]? = some slot ∧
      slot.busy = true ∧ slot.isLive = true ∧ slot.arch = some r) ∧
    (∀ tag, m.aliases.get? r = some tag → ∃ k slot, m.LastToWrite r k slot ∧ slot.tag = some tag ∧
      m.rob.youngestWriter r = some (m.rob.place k)) ∧
    m.operandFor r = m.aliasedOperand r := by
  intro m
  have hcoh : Coherent code m := h.coherent hc
  have hnamed : m.Named := h.named hc
  have hget : m.aliases.get? r = (lastWriter m.rob.window r).bind Slot.tag := hnamed.aliased r
  refine ⟨?_, fun tag htag => ?_, hcoh.operandFor_eq_aliased hnamed r⟩
  · rw [← hcoh.lastWriter_isSome_iff, hget]
    cases hw : lastWriter m.rob.window r with
    | none => rfl
    | some slot => simp [hcoh.tags.isSome (mem_of_lastWriter hw).1]
  · rw [hget] at htag
    obtain ⟨slot, hw, ht⟩ := Option.bind_eq_some_iff.1 htag
    obtain ⟨k, hlast, hyoungest⟩ := hcoh.lastToWrite hw
    exact ⟨k, slot, hlast, ht, hyoungest⟩

/-- A branch that is taken cancels the addition behind it, and no register is left to issue it again: the
alias of its destination is once more the register of the multiplication before the branch. -/
theorem aliases_name_latest_writers_branch : ∃ (config : Config) (code : List Instruction) (trace : List Deed)
    (s : Session), config.Admitted ∧ Session.Reached config code trace s ∧
      s.machine.counters.squashed = 1 ∧ s.machine.aliases.get? ⟨1⟩ = some ⟨0⟩ ∧
      (∃ k slot, s.machine.LastToWrite ⟨1⟩ k slot ∧ slot.tag = some ⟨0⟩) ∧
      s.machine.operandFor ⟨1⟩ = (s.machine.physical.get ⟨0⟩).map .resolved := by
  let mul : Instruction := ⟨.mul, some ⟨1⟩, ⟨2⟩, some ⟨3⟩, 0, []⟩
  let branch : Instruction := ⟨.beq, none, ⟨0⟩, some ⟨0⟩, 1, []⟩
  let add : Instruction := ⟨.add, some ⟨1⟩, ⟨2⟩, some ⟨3⟩, 0, []⟩
  let config : Config := { Config.standard with highestPhys := 2, memorySize := 0 }
  have hadmitted : config.Admitted := ⟨by decide, by decide, by decide⟩
  have hrun : ∃ r ∈ Session.tracedRun config [mul, branch, add] 5, r.2.machine.counters.squashed = 1 ∧
      r.2.machine.aliases.get? ⟨1⟩ = some ⟨0⟩ ∧
      ((r.2.machine.rob.slotFor ⟨0⟩).any fun i => r.2.machine.rob.slots[i]?.any (·.ready)) = true := by
    decide +kernel
  obtain ⟨⟨trace, s⟩, hr, hsquashed, halias, hready⟩ := hrun
  change s.machine.aliases.get? ⟨1⟩ = some ⟨0⟩ at halias
  have hreached := Session.Reached.of_tracedRun hr
  obtain ⟨-, hwriter, hoperand⟩ := aliases_name_latest_writers hadmitted hreached ⟨1⟩
  obtain ⟨k, slot, hlast, htag, -⟩ := hwriter ⟨0⟩ halias
  refine ⟨config, _, trace, s, hadmitted, hreached, hsquashed, halias, ⟨k, slot, hlast, htag⟩, ?_⟩
  rw [hoperand, Machine.aliasedOperand, halias]
  exact if_pos hready

end OutOfOrder
