import Mathlib.Data.List.Rotate
import OutOfOrder.Proofs.Success
import OutOfOrder.RegisterFile
import OutOfOrder.ReorderBuffer

/-!
The physical registers go round. Those of the slots in flight, oldest first, and then the queue of the free
ones are all the registers there are, in their order but for where the list begins.
-/

set_option autoImplicit false

namespace OutOfOrder

def allTags (count : Nat) : List Tag := (List.range count).map fun i => ⟨UInt16.ofNat i⟩

def Circulates (w : List Slot) (f : PhysicalFile) : Prop :=
  (w.map Slot.tag ++ f.free.map some).IsRotated ((allTags f.count).map some)

namespace Circulates

variable {w : List Slot} {f f' : PhysicalFile} {tag : Tag}

theorem nodup_allTags {count : Nat} (hc : count ≤ UInt16.size) : (allTags count).Nodup := by
  refine List.Nodup.map_on ?_ List.nodup_range
  intro i hi j hj hij
  rw [List.mem_range] at hi hj
  simp only [UInt16.size] at hc
  have hv := congrArg (fun t : Tag => t.index.toNat) hij
  simp only [UInt16.toNat_ofNat'] at hv
  rwa [Nat.mod_eq_of_lt (by omega), Nat.mod_eq_of_lt (by omega)] at hv

theorem nodup (h : Circulates w f) (hc : f.count ≤ UInt16.size) :
    (w.map Slot.tag ++ f.free.map some).Nodup := by
  rw [List.IsRotated.nodup_iff h]
  exact (nodup_allTags hc).map fun _ _ => Option.some.inj

theorem nodup_tags (h : Circulates w f) (hc : f.count ≤ UInt16.size) : (w.map Slot.tag).Nodup :=
  (List.nodup_append.1 (h.nodup hc)).1

theorem isSome (h : Circulates w f) {s : Slot} (hs : s ∈ w) : s.tag.isSome = true := by
  have hm : s.tag ∈ w.map Slot.tag ++ f.free.map some :=
    List.mem_append_left _ (List.mem_map_of_mem hs)
  rw [List.IsRotated.mem_iff h] at hm
  obtain ⟨tag, -, ht⟩ := List.mem_map.1 hm
  simp [← ht]

theorem fresh (h : Circulates w f) (hc : f.count ≤ UInt16.size)
    (ha : f.allocate = some (tag, f')) {s : Slot} (hs : s ∈ w) : s.tag ≠ some tag := by
  have hd := (List.nodup_append.1 (h.nodup hc)).2.2
  unfold PhysicalFile.allocate at ha
  split at ha
  · simp at ha
  · next r rest hf =>
    simp only [Option.some.injEq, Prod.mk.injEq] at ha
    obtain ⟨rfl, -⟩ := ha
    exact hd _ (List.mem_map_of_mem hs) _ (by simp [hf])

theorem length_add (h : Circulates w f) : w.length + f.free.length = f.count := by
  simpa [allTags] using h.perm.length_eq

/-- No register is to be had when all of them are in flight. -/
theorem allocate_eq_none_iff (h : Circulates w f) : f.allocate = none ↔ w.length = f.count := by
  have hlength := h.length_add
  unfold PhysicalFile.allocate
  cases hfree : f.free with
  | nil => simpa [hfree] using hlength
  | cons r rest =>
    rw [hfree, List.length_cons] at hlength
    refine iff_of_false (by simp) (by omega)

theorem of_eq (h : Circulates w f) {w' : List Slot} (hw : w'.map Slot.tag = w.map Slot.tag)
    (hfree : f'.free = f.free) (hcount : f'.count = f.count) : Circulates w' f' := by
  unfold Circulates
  rw [hw, hfree, hcount]
  exact h

theorem start (count : Nat) : Circulates [] (.ofCount count) := by
  have hc : (PhysicalFile.ofCount count).count = count := by
    simp [PhysicalFile.ofCount, PhysicalFile.count]
  unfold Circulates
  rw [hc]
  exact .refl _

/-- The register that was free for longest goes behind those in flight. -/
theorem allocate (h : Circulates w f) (ha : f.allocate = some (tag, f')) {s : Slot}
    (hs : s.tag = some tag) : Circulates (w ++ [s]) f' := by
  unfold PhysicalFile.allocate at ha
  split at ha
  · simp at ha
  · next r rest hf =>
    simp only [Option.some.injEq, Prod.mk.injEq] at ha
    obtain ⟨rfl, rfl⟩ := ha
    unfold Circulates at h ⊢
    rw [hf] at h
    simpa [hs, PhysicalFile.count] using h

/-- The register of the head goes to the end of the queue. -/
theorem release {s : Slot} (h : Circulates (s :: w) f) (hs : s.tag = some tag)
    (hr : f.release tag = .ok f') : Circulates w f' := by
  rw [PhysicalFile.release, map_eq_ok_iff] at hr
  obtain ⟨values, hw, rfl⟩ := hr
  have hcount : values.size = f.values.size := size_writeAt hw
  unfold Circulates at h ⊢
  rw [List.map_cons, hs, List.cons_append] at h
  simp only [List.map_append, List.map_cons, List.map_nil, PhysicalFile.count, hcount,
    ← List.append_assoc]
  exact List.IsRotated.cons_append_singleton.symm.trans h

end Circulates

end OutOfOrder
