import Mathlib.Data.List.Sort
import OutOfOrder.Proofs.Refinement

/-!
What computations do to memory one after the other, and how far it matters in which order they do it: lists
of computations that agree on the order of conflicting accesses read the same words and leave the same memory.
-/

set_option autoImplicit false

namespace OutOfOrder

namespace Computation

/-- The address that a load or a store accesses. -/
def address (c : Computation) : Option Address :=
  match c.station.opcode, c.station.result with
  | some .load, .ok computed | some .store, .ok computed => some (addressOf computed)
  | _, _ => none

def isStore (c : Computation) : Bool := c.station.opcode == some .store

def storesTo (a : Address) (c : Computation) : Bool := c.isStore && c.address == some a

def loadsFrom (a : Address) (c : Computation) : Bool := !c.isStore && c.address == some a

/-- Both access one address, and one of them stores. -/
def conflicts (c d : Computation) : Bool :=
  c.address.isSome && c.address == d.address && (c.isStore || d.isStore)

theorem conflicts_of_stores {a : Address} {c d : Computation} (hc : c.storesTo a = true)
    (hd : d.storesTo a = true) : c.conflicts d = true := by
  simp only [storesTo, Bool.and_eq_true, beq_iff_eq] at hc hd
  simp [conflicts, hc, hd]

theorem conflicts_of_load {a : Address} {c d : Computation} (hc : c.loadsFrom a = true)
    (hd : d.storesTo a = true) : c.conflicts d = true ∧ d.conflicts c = true := by
  simp only [storesTo, loadsFrom, Bool.and_eq_true, beq_iff_eq] at hc hd
  simp [conflicts, hc, hd]

theorem words_perform (c : Computation) (memory : Memory) (a : Address) :
    (c.perform memory).2.words[a]? = if c.storesTo a then some c.data else memory.words[a]? := by
  unfold perform storesTo isStore address
  cases ho : c.station.opcode with
  | none => simp
  | some op =>
    cases hr : c.station.result with
    | error => simp
    | ok computed =>
      cases op <;> simp [Memory.access, Memory.store, Std.TreeMap.getElem?_insert]

theorem perform_of_load {a : Address} {c : Computation} (hc : c.loadsFrom a = true) (memory : Memory) :
    (c.perform memory).1 = memory.words[a]?.getD 0.0 := by
  unfold loadsFrom isStore address at hc
  unfold perform
  cases ho : c.station.opcode with
  | none => simp [ho] at hc
  | some op =>
    cases hr : c.station.result with
    | error => simp [ho, hr] at hc
    | ok computed =>
      cases op <;> simp_all [Memory.access, Memory.load, Std.TreeMap.getD_eq_getD_getElem?]

/-- Only a load depends on memory. -/
theorem perform_congr {c : Computation} {memory memory' : Memory}
    (h : ∀ a, c.loadsFrom a = true → memory.words[a]? = memory'.words[a]?) :
    (c.perform memory).1 = (c.perform memory').1 := by
  by_cases hl : ∃ a, c.loadsFrom a = true
  · obtain ⟨a, ha⟩ := hl
    rw [perform_of_load ha, perform_of_load ha, h a ha]
  · unfold loadsFrom isStore address at hl
    unfold perform
    cases ho : c.station.opcode with
    | none => rfl
    | some op =>
      cases hr : c.station.result with
      | error => rfl
      | ok computed => cases op <;> simp_all [Memory.access]

end Computation

/-! ### One after the other -/

def memoryAfter (memory : Memory) (cs : List Computation) : Memory :=
  cs.foldl (fun memory c => (c.perform memory).2) memory

theorem memoryAfter_append (memory : Memory) (cs ds : List Computation) :
    memoryAfter memory (cs ++ ds) = memoryAfter (memoryAfter memory cs) ds := List.foldl_append

/-- Every result is what its computation makes of the memory that the computations before it leave. -/
def Truthful (memory : Memory) (cs : List Computation) : Prop :=
  ∀ pre c post, cs = pre ++ c :: post → (c.perform (memoryAfter memory pre)).1 = c.result

/-- Where two computations conflict, the first comes first in the program. -/
def Ordered (cs : List Computation) : Prop :=
  cs.Pairwise fun c d => c.conflicts d = true → c.id.position < d.id.position

/-- The last that stored to the address. -/
def latestStore (cs : List Computation) (a : Address) : Option Computation :=
  (cs.filter (Computation.storesTo a)).getLast?

theorem words_memoryAfter (memory : Memory) (cs : List Computation) (a : Address) :
    (memoryAfter memory cs).words[a]? =
      ((latestStore cs a).map Computation.data <|> memory.words[a]?) := by
  induction cs generalizing memory with
  | nil => simp [memoryAfter, latestStore]
  | cons c rest ih =>
    have hc := ih (c.perform memory).2
    rw [Computation.words_perform] at hc
    change (memoryAfter (c.perform memory).2 rest).words[a]? = _
    rw [hc]
    unfold latestStore
    rw [List.filter_cons]
    cases hs : c.storesTo a with
    | false => simp
    | true =>
      simp only [if_true, List.getLast?_cons]
      cases (rest.filter (Computation.storesTo a)).getLast? <;> simp

namespace Truthful

variable {memory : Memory} {c : Computation} {cs : List Computation}

theorem nil (memory : Memory) : Truthful memory [] := by
  intro pre c post h
  simp at h

theorem concat (h : Truthful memory cs) (hc : (c.perform (memoryAfter memory cs)).1 = c.result) :
    Truthful memory (cs ++ [c]) := by
  intro pre d post hd
  rcases List.eq_nil_or_concat post with rfl | ⟨post, last, rfl⟩
  · obtain ⟨rfl, hdc⟩ := List.append_inj' hd rfl
    obtain rfl := List.singleton_inj.1 hdc
    exact hc
  · rw [List.concat_eq_append, ← List.cons_append, ← List.append_assoc] at hd
    exact h pre d post (List.append_inj' hd rfl).1

theorem head (h : Truthful memory (c :: cs)) : (c.perform memory).1 = c.result := h [] c cs rfl

theorem tail (h : Truthful memory (c :: cs)) : Truthful (c.perform memory).2 cs := by
  intro pre d post hd
  exact h (c :: pre) d post (by rw [hd]; rfl)

end Truthful

/-! ### The order of what does not conflict -/

section Reordering

variable {memory : Memory} {cs ds : List Computation}

/-- Of computations that conflict with one another, the order is the same in both lists. -/
theorem Ordered.filter_eq (hcs : Ordered cs) (hds : Ordered ds) (hp : cs.Perm ds) (hnodup : cs.Nodup)
    (p : Computation → Bool) (h : ∀ c ∈ cs, ∀ d ∈ cs, p c = true → p d = true → c ≠ d →
      c.conflicts d = true) : cs.filter p = ds.filter p := by
  have hsorted : ∀ xs : List Computation, Ordered xs → cs.Perm xs →
      (xs.filter p).Pairwise fun c d => c.id.position < d.id.position := by
    intro xs hxs hpx
    have hne : xs.Pairwise fun c d => c ≠ d := hpx.nodup hnodup
    rw [List.pairwise_filter]
    refine (hxs.and hne).imp_of_mem fun {c d} hc hd hcd hpc hpd => hcd.1 ?_
    exact h c (hpx.mem_iff.2 hc) d (hpx.mem_iff.2 hd) hpc hpd hcd.2
  exact (hp.filter p).eq_of_pairwise (fun c d _ _ hcd hdc => absurd hcd (by omega))
    (hsorted cs hcs (.refl cs)) (hsorted ds hds hp)

theorem Ordered.latestStore_eq (hcs : Ordered cs) (hds : Ordered ds) (hp : cs.Perm ds)
    (hnodup : cs.Nodup) (a : Address) : latestStore cs a = latestStore ds a := by
  rw [latestStore, hcs.filter_eq hds hp hnodup (Computation.storesTo a)
    fun c _ d _ hc hd _ => Computation.conflicts_of_stores hc hd, latestStore]

theorem id_ne_of_nodup {c : Computation} {pre post : List Computation}
    (h : ((pre ++ c :: post).map Computation.id).Nodup) : ∀ d ∈ pre ++ post, d.id ≠ c.id := by
  rw [List.map_append, List.map_cons, List.nodup_middle, List.nodup_cons, ← List.map_append] at h
  intro d hd he
  exact h.1 (he ▸ List.mem_map_of_mem hd)

/-- Before a load, both lists have the same stores to its address. -/
theorem Ordered.latestStore_before {a : Address} {c : Computation} (hc : c.loadsFrom a = true)
    {pre post pre' post' : List Computation} (hcs : Ordered (pre ++ c :: post))
    (hds : Ordered (pre' ++ c :: post')) (hp : (pre ++ c :: post).Perm (pre' ++ c :: post'))
    (hnodup : ((pre ++ c :: post).map Computation.id).Nodup) :
    latestStore pre a = latestStore pre' a := by
  let p : Computation → Bool := fun d => d.storesTo a || d.id == c.id
  have hpc : p c = true := by simp [p]
  have hmem : c ∈ pre ++ c :: post := by simp
  have hself : ∀ d ∈ pre ++ c :: post, d.id = c.id → d = c := fun d hd he =>
    List.inj_on_of_nodup_map hnodup hd hmem he
  have hne := id_ne_of_nodup hnodup
  have hne' := id_ne_of_nodup ((hp.map Computation.id).nodup hnodup)
  have hfilter := hcs.filter_eq hds hp hnodup.of_map p fun x hx y hy hpx hpy hxy => by
    simp only [p, Bool.or_eq_true, beq_iff_eq] at hpx hpy
    rcases hpx with hpx | hpx <;> rcases hpy with hpy | hpy
    · exact Computation.conflicts_of_stores hpx hpy
    · rw [hself y hy hpy]
      exact (Computation.conflicts_of_load hc hpx).2
    · rw [hself x hx hpx]
      exact (Computation.conflicts_of_load hc hpy).1
    · exact absurd ((hself x hx hpx).trans (hself y hy hpy).symm) hxy
  rw [List.filter_append, List.filter_append, List.filter_cons_of_pos hpc,
    List.filter_cons_of_pos hpc] at hfilter
  have hnot : ∀ xs ⊆ pre ++ post, c ∉ xs.filter p := fun xs hxs hm =>
    hne c (hxs (List.mem_filter.1 hm).1) rfl
  have hpre := ((List.append_cons_inj_of_notMem (hnot pre (List.subset_append_left pre post))
    (hnot post (List.subset_append_right pre post))).1 hfilter).1
  have hstores : ∀ xs : List Computation, (∀ d ∈ xs, d.id ≠ c.id) →
      xs.filter p = xs.filter (Computation.storesTo a) := fun xs hxs =>
    List.filter_congr fun d hd => by simp [p, hxs d hd]
  rw [hstores pre fun d hd => hne d (List.mem_append_left _ hd),
    hstores pre' fun d hd => hne' d (List.mem_append_left _ hd)] at hpre
  rw [latestStore, hpre, latestStore]

theorem Ordered.truthful (hcs : Ordered cs) (hds : Ordered ds) (hp : cs.Perm ds)
    (hnodup : (cs.map Computation.id).Nodup) (h : Truthful memory cs) : Truthful memory ds := by
  intro pre c post hd
  have hmem : c ∈ cs := hp.mem_iff.2 (by rw [hd]; simp)
  obtain ⟨pre', post', rfl⟩ := List.append_of_mem hmem
  subst hd
  rw [← h pre' c post' rfl]
  refine Computation.perform_congr fun a ha => ?_
  rw [words_memoryAfter, words_memoryAfter, hcs.latestStore_before ha hds hp hnodup]

theorem Ordered.toList_memoryAfter (hcs : Ordered cs) (hds : Ordered ds) (hp : cs.Perm ds)
    (hnodup : cs.Nodup) (memory : Memory) :
    (memoryAfter memory cs).toList = (memoryAfter memory ds).toList := by
  refine Std.TreeMap.Equiv.toList_eq (Std.TreeMap.Equiv.of_forall_constGet?_eq fun a => ?_)
  rw [words_memoryAfter, words_memoryAfter, hcs.latestStore_eq hds hp hnodup]

end Reordering

/-! ### In program order -/

theorem Computation.Shows.perform {c : Computation} {i : Instruction} {e : Evaluation} {f : RegisterFile}
    {word : Word} (h : c.Shows i e) (he : i.evaluate f word = .ok e) (memory : Memory) :
    ∃ computed, i.compute f = .ok computed ∧
      c.perform memory = memory.access i.opcode computed ((i.right f).getD 0.0) := by
  rw [Instruction.evaluate, map_eq_ok_iff] at he
  obtain ⟨computed, hcompute, rfl⟩ := he
  have hleft : Station.operandValue c.station.left = i.left f := by
    rw [h.left]
    rfl
  have hright : c.data = (i.right f).getD 0.0 := by
    rw [data, h.right]
    cases i.right f <;> rfl
  have hresult : c.station.result = .ok computed := by
    rw [Station.result, h.opcode, hleft, h.imm, show Station.operandValue c.station.right = _ from hright]
    exact hcompute
  refine ⟨computed, hcompute, ?_⟩
  simp only [Computation.perform, h.opcode, hresult, hright]

/-- With the words that the loads find in memory, the replay is the run in order. -/
theorem runInOrder_of_replay {code : List Instruction} {words : List Word} {es : List Evaluation}
    {f last : RegisterFile} {memory : Memory} {ds : List Computation}
    (h : replay f (code.zip words) = .ok (es, last)) (hwords : words.length = code.length)
    (hlength : ds.length = code.length)
    (hshows : ∀ (p : Nat) c i e, ds[p]? = some c → code[p]? = some i → es[p]? = some e → c.Shows i e)
    (ht : Truthful memory ds) :
    runInOrder f memory code = .ok (es.map Evaluation.result, last, memoryAfter memory ds) := by
  induction code generalizing words es f memory ds with
  | nil =>
    obtain rfl := List.length_eq_zero_iff.1 hlength
    simp only [List.zip_nil_left, replay, Except.ok.injEq, Prod.mk.injEq] at h
    obtain ⟨rfl, rfl⟩ := h
    rfl
  | cons i rest ih =>
    cases words with
    | nil => simp at hwords
    | cons word words =>
      cases ds with
      | nil => simp at hlength
      | cons c ds =>
        simp only [List.zip_cons_cons, replay, bind_eq_ok_iff, pure_eq_ok_iff, Prod.mk.injEq] at h
        obtain ⟨e, he, ⟨others, final⟩, hrest, rfl, rfl⟩ := h
        have hc : c.Shows i e := hshows 0 c i e rfl rfl rfl
        obtain ⟨computed, hcompute, hperform⟩ := hc.perform he memory
        have hfirst : (memory.access i.opcode computed ((i.right f).getD 0.0)).1 = e.result := by
          rw [← hperform, ht.head, hc.result]
        have hlater := ih hrest (by simpa using hwords) (by simpa using hlength)
          (fun p => hshows (p + 1)) ht.tail
        rw [hperform] at hlater
        simp only [runInOrder, hcompute, hfirst, hlater, bind, Except.bind, pure, Except.pure,
          List.map_cons, memoryAfter, List.foldl_cons, hperform]

end OutOfOrder
