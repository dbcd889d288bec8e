import Mathlib.Data.List.Basic
import OutOfOrder.Text.Blank
import OutOfOrder.Text.Uppercase

/-!
Upper-casing changes no character twice, drops none and makes none blank. Past ASCII this is read off the tables:
what a run or a sequence maps to is mapped by neither.
-/

set_option autoImplicit false

namespace OutOfOrder.Text

/-! ### The tables -/

namespace CaseRun

/-- The image of the last code point. -/
def lastImage (r : CaseRun) : Nat := r.image + (r.last - r.first)

/-- The second run maps no image of the first: the two are apart, or have different parities. The tests are those
that the kernel evaluates fastest. -/
def avoids (r s : CaseRun) : Bool :=
  Nat.blt s.last r.image || Nat.blt r.lastImage s.first ||
    (Nat.beq r.step 2 || Nat.beq r.first r.last) && Nat.beq s.step 2 && Nat.beq ((r.image + s.first) % 2) 1

theorem image?_eq_some {r : CaseRun} {n k : Nat} (h : r.image? n = some k) :
    ∃ d, n = r.first + d ∧ k = r.image + d ∧ r.first + d ≤ r.last ∧ d % r.step = 0 := by
  unfold image? at h
  split at h
  · next hn =>
    obtain ⟨d, rfl⟩ := Nat.exists_eq_add_of_le hn.1
    rw [Nat.add_sub_cancel_left] at h hn
    exact ⟨d, rfl, (Option.some.inj h).symm, hn.2⟩
  · simp at h

theorem image?_of_avoids {r s : CaseRun} (h : r.avoids s = true) {n k : Nat} (hk : r.image? n = some k) :
    s.image? k = none := by
  obtain ⟨d, rfl, rfl, hlast, hstep⟩ := image?_eq_some hk
  simp only [avoids, Bool.or_eq_true, Bool.and_eq_true, Nat.blt_eq, Nat.beq_eq] at h
  refine if_neg fun hs => ?_
  obtain ⟨hfirst, hle, hmod⟩ := hs
  rcases h with (hbelow | habove) | ⟨⟨heven, htwo⟩, hodd⟩
  · omega
  · rw [lastImage] at habove
    omega
  · have hparity : d % 2 = 0 := by
      rcases heven with htwo | hone
      · rwa [htwo] at hstep
      · omega
    rw [htwo] at hmod
    omega

end CaseRun

theorem caseRuns_avoid {r s : CaseRun} (hr : r ∈ caseRuns) (hs : s ∈ caseRuns) : r.avoids s = true := by
  have h : (caseRuns.all fun r => caseRuns.all fun s => r.avoids s) = true := by decide +kernel
  exact List.all_eq_true.1 (List.all_eq_true.1 h r hr) s hs

theorem caseRuns_avoid_sequences {r : CaseRun} (hr : r ∈ caseRuns) {q : Nat × List Nat}
    (hq : q ∈ caseSequences) : q.1 < r.image ∨ r.lastImage < q.1 := by
  have h : (caseRuns.all fun r => caseSequences.all fun q =>
      Nat.blt q.1 r.image || Nat.blt r.lastImage q.1) = true := by
    decide +kernel
  simpa [Nat.blt_eq] using List.all_eq_true.1 (List.all_eq_true.1 h r hr) q hq

/-- Two runs of a single character have an ASCII letter as image. -/
theorem caseRuns_ascii {r : CaseRun} (hr : r ∈ caseRuns) (h : r.image < 128) :
    r.first = r.last ∧ upper (Char.ofNat r.image) = [Char.ofNat r.image] := by
  have hall : ∀ r ∈ caseRuns, r.image < 128 →
      r.first = r.last ∧ upper (Char.ofNat r.image) = [Char.ofNat r.image] := by
    decide +kernel
  exact hall r hr h

theorem caseRuns_images {r : CaseRun} (hr : r ∈ caseRuns) {d : Nat} (hd : r.first + d ≤ r.last) :
    (r.image + d).isValidChar ∧ isBlank (Char.ofNat (r.image + d)) = false := by
  have hall : ∀ r ∈ caseRuns, ∀ d < r.last - r.first + 1,
      (r.image + d).isValidChar ∧ isBlank (Char.ofNat (r.image + d)) = false := by
    decide +kernel
  exact hall r hr d (by omega)

theorem caseSequences_images {q : Nat × List Nat} (hq : q ∈ caseSequences) : q.2 ≠ [] ∧ ∀ k ∈ q.2,
    upper (Char.ofNat k) = [Char.ofNat k] ∧ isBlank (Char.ofNat k) = false := by
  have hall : ∀ q ∈ caseSequences, q.2 ≠ [] ∧ ∀ k ∈ q.2,
      upper (Char.ofNat k) = [Char.ofNat k] ∧ isBlank (Char.ofNat k) = false := by
    decide +kernel
  exact hall q hq

/-! ### Characters -/

theorem toNat_ofNat {n : Nat} (h : n.isValidChar) : (Char.ofNat n).toNat = n := by
  rw [Char.ofNat, dif_pos h]
  rfl

theorem toUpper_ascii {c : Char} (h : c.toNat < 128) : c.toUpper.toNat < 128 ∧
    c.toUpper.toUpper = c.toUpper ∧ isBlank c.toUpper = isBlank c := by
  have hall : ∀ n < 128, (Char.ofNat n).toUpper.toNat < 128 ∧
      (Char.ofNat n).toUpper.toUpper = (Char.ofNat n).toUpper ∧
      isBlank (Char.ofNat n).toUpper = isBlank (Char.ofNat n) := by
    decide +kernel
  simpa using hall c.toNat h

theorem upper_image {r : CaseRun} (hr : r ∈ caseRuns) {n k : Nat} (hk : r.image? n = some k) :
    upper (Char.ofNat k) = [Char.ofNat k] := by
  obtain ⟨d, -, rfl, hd, -⟩ := CaseRun.image?_eq_some hk
  by_cases hascii : r.image < 128
  · obtain ⟨hsingle, hfixed⟩ := caseRuns_ascii hr hascii
    obtain rfl : d = 0 := by omega
    exact hfixed
  · have hseq : caseSequences.lookup (r.image + d) = none := by
      refine List.lookup_eq_none_iff.2 fun q hq => ?_
      have hapart := caseRuns_avoid_sequences hr hq
      rw [CaseRun.lastImage] at hapart
      simp only [bne_iff_ne, ne_eq]
      omega
    have hrun : caseRuns.findSome? (·.image? (r.image + d)) = none :=
      List.findSome?_eq_none_iff.2 fun s hs => CaseRun.image?_of_avoids (caseRuns_avoid hr hs) hk
    rw [upper, toNat_ofNat (caseRuns_images hr hd).1, if_neg (by omega), hseq, hrun]

/-- Where the images of a character come from. -/
theorem mem_upper {c d : Char} (h : d ∈ upper c) : c.toNat < 128 ∧ d = c.toUpper ∨
    (∃ q ∈ caseSequences, ∃ k ∈ q.2, d = Char.ofNat k) ∨
    (∃ r ∈ caseRuns, ∃ k, r.image? c.toNat = some k ∧ d = Char.ofNat k) ∨ d = c ∧ upper c = [c] := by
  unfold upper at h
  split at h
  · next hascii => exact .inl ⟨hascii, List.mem_singleton.1 h⟩
  · next hascii =>
    split at h
    · next image hq =>
      obtain ⟨before, after, he, -⟩ := List.lookup_eq_some_iff.1 hq
      obtain ⟨k, hk, rfl⟩ := List.mem_map.1 h
      exact .inr (.inl ⟨(c.toNat, image), by rw [he]; simp, k, hk, rfl⟩)
    · next hseq =>
      split at h
      · next k hk =>
        obtain ⟨r, hr, hk⟩ := List.exists_of_findSome?_eq_some hk
        exact .inr (.inr (.inl ⟨r, hr, k, hk, List.mem_singleton.1 h⟩))
      · next hrun =>
        refine .inr (.inr (.inr ⟨List.mem_singleton.1 h, ?_⟩))
        rw [upper, if_neg hascii, hseq, hrun]

theorem upper_of_mem_upper {c d : Char} (h : d ∈ upper c) : upper d = [d] := by
  rcases mem_upper h with ⟨hascii, rfl⟩ | ⟨q, hq, k, hk, rfl⟩ | ⟨r, hr, k, hk, rfl⟩ | ⟨rfl, hfixed⟩
  · obtain ⟨hlt, htwice, -⟩ := toUpper_ascii hascii
    rw [upper_ascii hlt, htwice]
  · exact ((caseSequences_images hq).2 k hk).1
  · exact upper_image hr hk
  · exact hfixed

theorem isBlank_of_mem_upper {c d : Char} (h : d ∈ upper c) (hc : isBlank c = false) : isBlank d = false := by
  rcases mem_upper h with ⟨hascii, rfl⟩ | ⟨q, hq, k, hk, rfl⟩ | ⟨r, hr, k, hk, rfl⟩ | ⟨rfl, -⟩
  · rw [(toUpper_ascii hascii).2.2, hc]
  · exact ((caseSequences_images hq).2 k hk).2
  · obtain ⟨d, -, rfl, hd, -⟩ := CaseRun.image?_eq_some hk
    exact (caseRuns_images hr hd).2
  · exact hc

theorem upper_ne_nil (c : Char) : upper c ≠ [] := by
  unfold upper
  split
  · simp
  · split
    · next image hq =>
      obtain ⟨before, after, he, -⟩ := List.lookup_eq_some_iff.1 hq
      have hne := (caseSequences_images (show (c.toNat, image) ∈ caseSequences by rw [he]; simp)).1
      simpa using hne
    · split <;> simp

/-! ### Texts -/

theorem uppercase_of_fixed {cs : List Char} (h : ∀ c ∈ cs, upper c = [c]) : uppercase cs = cs := by
  rw [uppercase, List.flatMap_congr (g := fun c => [c]) h, List.flatMap_singleton']

/-- Upper-casing twice is upper-casing once, also for a part of the text. -/
theorem upper_of_mem_uppercase {cs : List Char} {d : Char} (h : d ∈ uppercase cs) : upper d = [d] := by
  obtain ⟨c, -, hd⟩ := List.mem_flatMap.1 h
  exact upper_of_mem_upper hd

end OutOfOrder.Text
