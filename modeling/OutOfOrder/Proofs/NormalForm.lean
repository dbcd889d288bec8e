import OutOfOrder.Assembly.Program
import OutOfOrder.Proofs.Uppercase

/-!
The normal form of a line, told by its words: what stands between the blanks of the upper-cased line, put together
again with a single blank, or with none where two words meet at a separator. The two passes over the line come to
the same.
-/

set_option autoImplicit false

namespace OutOfOrder.Assembly

open Text

/-- What stands between the blanks. -/
def words (cs : List Char) : List (List Char) := (cs.splitOnP isBlank).filter (!·.isEmpty)

/-- A separator ends the first word or begins the second. -/
def meetAtSeparator (w v : List Char) : Bool := w.getLast?.any isSeparator || v.head?.any isSeparator

def joinWords : List (List Char) → List Char
  | [] => []
  | [w] => w
  | w :: v :: rest => w ++ (if meetAtSeparator w v then [] else [' ']) ++ joinWords (v :: rest)

def standardForm (line : List Char) : List Char := joinWords (words (uppercase line))

/-! ### Words and gaps -/

/-- Some characters, and no blank among them. -/
def IsWord (w : List Char) : Prop := w ≠ [] ∧ ∀ c ∈ w, isBlank c = false

/-- A text that begins and ends with a word, and its words in order. -/
inductive Spaced : List Char → List (List Char) → Prop
  | word {w : List Char} (isWord : IsWord w) : Spaced w [w]
  | gap {w gap text v : List Char} {rest : List (List Char)} {b : Char} (isWord : IsWord w)
      (blank : isBlank b = true) (blanks : ∀ c ∈ gap, isBlank c = true) (more : Spaced text (v :: rest)) :
      Spaced (w ++ b :: (gap ++ text)) (w :: v :: rest)

namespace Spaced

variable {text : List Char} {ws : List (List Char)}

theorem words_eq (h : Spaced text ws) : words text = ws := by
  induction h with
  | @word w isWord =>
    rw [words, List.splitOnP_eq_singleton isWord.2]
    simp [isWord.1]
  | @gap w gap text v rest b isWord blank blanks _ ih =>
    have hgap : words (gap ++ text) = words text := by
      clear isWord blank ih
      induction gap with
      | nil => rfl
      | cons c gap ih =>
        rw [← ih fun d hd => blanks d (List.mem_cons_of_mem c hd), List.cons_append, words,
          List.splitOnP_cons_eq_if_modifyHead, if_pos (blanks c (List.mem_cons_self ..))]
        rfl
    have hne : (!w.isEmpty) = true := by simp [isWord.1]
    rw [words, List.splitOnP_append_cons_of_forall_mem isWord.2 b blank, List.filter_cons, if_pos hne]
    exact congrArg (w :: ·) (hgap.trans ih)

theorem exists_head (h : Spaced text ws) : ∃ c cs, text = c :: cs ∧ isBlank c = false ∧
    ∃ v rest, ws = v :: rest ∧ v.head? = some c := by
  have hword : ∀ {w : List Char}, IsWord w → ∃ c cs, w = c :: cs ∧ isBlank c = false := fun isWord => by
    obtain ⟨c, cs, rfl⟩ := List.exists_cons_of_ne_nil isWord.1
    exact ⟨c, cs, rfl, isWord.2 c (List.mem_cons_self ..)⟩
  cases h with
  | word isWord =>
    obtain ⟨c, cs, rfl, hc⟩ := hword isWord
    exact ⟨c, cs, rfl, hc, _, _, rfl, rfl⟩
  | gap isWord blank blanks more =>
    obtain ⟨c, cs, rfl, hc⟩ := hword isWord
    exact ⟨c, _, rfl, hc, _, _, rfl, rfl⟩

end Spaced

/-! ### The two passes -/

section Passes

variable {w gap cs : List Char} {c : Char}

theorem squeeze_cons (hc : isBlank c = false) (inRun : Bool) : squeeze inRun (c :: cs) = c :: squeeze false cs := by
  rw [squeeze, if_neg (by simp [hc])]

theorem squeeze_word (hw : IsWord w) (inRun : Bool) : squeeze inRun (w ++ cs) = w ++ squeeze false cs := by
  obtain ⟨hne, hw⟩ := hw
  induction w generalizing inRun with
  | nil => exact absurd rfl hne
  | cons c w ih =>
    rw [List.cons_append, squeeze_cons (hw c (List.mem_cons_self ..)), List.cons_append]
    by_cases hnil : w = []
    · rw [hnil]
      rfl
    · rw [ih false hnil fun d hd => hw d (List.mem_cons_of_mem c hd)]

theorem squeeze_gap (hgap : ∀ c ∈ gap, isBlank c = true) : squeeze true (gap ++ cs) = squeeze true cs := by
  induction gap with
  | nil => rfl
  | cons c gap ih =>
    rw [List.cons_append, squeeze, if_pos (hgap c (List.mem_cons_self ..)), if_pos rfl]
    exact ih fun d hd => hgap d (List.mem_cons_of_mem c hd)

theorem tighten_word (hw : IsWord w) (after : Bool) :
    tighten after (w ++ cs) = w ++ tighten (w.getLast?.any isSeparator) cs := by
  obtain ⟨hne, hw⟩ := hw
  induction w generalizing after with
  | nil => exact absurd rfl hne
  | cons c w ih =>
    rw [List.cons_append, tighten, if_neg (by simp [hw c (List.mem_cons_self ..)]), List.cons_append]
    cases w with
    | nil => simp
    | cons d w =>
      rw [ih (isSeparator c) (by simp) fun e he => hw e (List.mem_cons_of_mem c he), List.getLast?_cons_cons]

theorem tighten_blank {v : Char} (hv : isBlank v = false) (after : Bool) :
    tighten after (' ' :: v :: cs) =
      if after || isSeparator v then tighten after (v :: cs) else ' ' :: tighten false (v :: cs) := by
  rw [tighten, List.dropWhile_cons_of_neg (by simp [hv])]
  rfl

end Passes

theorem Spaced.tighten_squeeze {text : List Char} {ws : List (List Char)} (h : Spaced text ws)
    (inRun after : Bool) : tighten after (squeeze inRun text) = joinWords ws := by
  induction h generalizing inRun after with
  | @word w isWord =>
    have hsqueeze : squeeze inRun (w ++ []) = w ++ squeeze false [] := squeeze_word isWord inRun
    have htighten : tighten after (w ++ []) = w ++ tighten _ [] := tighten_word isWord after
    simp only [List.append_nil, squeeze, tighten] at hsqueeze htighten
    rw [hsqueeze, htighten, joinWords]
  | @gap w gap text v rest b isWord blank blanks more ih =>
    obtain ⟨c, cs, rfl, hc, v, rest, he, hv⟩ := more.exists_head
    obtain ⟨rfl, rfl⟩ := List.cons.inj he
    have hblank : squeeze false (b :: (gap ++ c :: cs)) = ' ' :: squeeze true (c :: cs) := by
      rw [squeeze, if_pos blank, if_neg (by simp), squeeze_gap blanks]
    rw [squeeze_word isWord, hblank, tighten_word isWord, joinWords, meetAtSeparator, hv, Option.any_some,
      List.append_assoc]
    have hrest := fun after => ih true after
    rw [squeeze_cons hc] at hrest ⊢
    rw [tighten_blank hc, hrest, hrest]
    split <;> simp [*]

/-! ### Lines -/

/-- No blank at either end. -/
structure Trimmed (cs : List Char) : Prop where
  first : ∀ c ∈ cs.head?, isBlank c = false
  last : ∀ c ∈ cs.getLast?, isBlank c = false

theorem not_head_dropWhile {p : Char → Bool} {cs : List Char} {c : Char} (h : c ∈ (cs.dropWhile p).head?) :
    p c = false := by
  have hnot := List.head?_dropWhile_not p cs
  rw [h] at hnot
  exact hnot

theorem trimmed_trim (cs : List Char) : Trimmed (trim cs) where
  first c hc := by
    obtain ⟨rest, hrest⟩ : trim cs <+: trimLeft cs := by
      have hsuffix := List.dropWhile_suffix isBlank (l := (trimLeft cs).reverse)
      rw [← List.reverse_prefix, List.reverse_reverse] at hsuffix
      exact hsuffix
    have hhead : c ∈ (trimLeft cs).head? := by
      rw [← hrest, List.head?_append, hc]
      rfl
    exact not_head_dropWhile hhead
  last c hc := by
    rw [trim, trimRight, List.getLast?_reverse] at hc
    exact not_head_dropWhile hc

theorem Trimmed.trim_eq {cs : List Char} (h : Trimmed cs) : trim cs = cs := by
  have hstays : ∀ {ds : List Char}, (∀ c ∈ ds.head?, isBlank c = false) → ds.dropWhile isBlank = ds := by
    intro ds hds
    cases ds with
    | nil => rfl
    | cons d ds => exact List.dropWhile_cons_of_neg (by simp [hds d rfl])
  have hlast : ∀ c ∈ cs.reverse.head?, isBlank c = false := by
    rw [List.head?_reverse]
    exact h.last
  rw [trim, trimLeft, hstays h.first, trimRight, hstays hlast, List.reverse_reverse]

theorem Trimmed.uppercase {cs : List Char} (h : Trimmed cs) : Trimmed (uppercase cs) where
  first c hc := by
    cases cs with
    | nil => simp at hc
    | cons d cs =>
      obtain ⟨e, more, he⟩ := List.exists_cons_of_ne_nil (upper_ne_nil d)
      have hce : e = c := by
        rw [Text.uppercase, List.flatMap_cons, he] at hc
        simpa using hc
      refine isBlank_of_mem_upper (c := d) ?_ (h.first d (by simp))
      rw [he, hce]
      exact List.mem_cons_self ..
  last c hc := by
    rcases List.eq_nil_or_concat' cs with rfl | ⟨before, d, rfl⟩
    · simp at hc
    · obtain ⟨images, e, he⟩ := (List.eq_nil_or_concat' (upper d)).resolve_left (upper_ne_nil d)
      have hec : e = c := by
        rw [uppercase_append, Text.uppercase, Text.uppercase, List.flatMap_singleton, he] at hc
        simpa using hc
      refine isBlank_of_mem_upper (c := d) ?_ (h.last d (by simp))
      rw [he, hec]
      simp

/-- A line is one word, or a word, a gap and a shorter line. -/
theorem Trimmed.isWord_or {cs : List Char} (h : Trimmed cs) (hne : cs ≠ []) : IsWord cs ∨
    ∃ w b gap text, cs = w ++ b :: (gap ++ text) ∧ IsWord w ∧ isBlank b = true ∧
      (∀ c ∈ gap, isBlank c = true) ∧ text ≠ [] ∧ Trimmed text := by
  obtain ⟨c, rest, rfl⟩ := List.exists_cons_of_ne_nil hne
  have hc : isBlank c = false := h.first c (by simp)
  let w := (c :: rest).takeWhile (!isBlank ·)
  have hsplit : w ++ (c :: rest).dropWhile (!isBlank ·) = c :: rest := List.takeWhile_append_dropWhile
  have hw : IsWord w := ⟨by simp [w, hc], fun d hd => by
    simpa using List.all_eq_true.1 List.all_takeWhile d hd⟩
  cases hmore : (c :: rest).dropWhile (!isBlank ·) with
  | nil =>
    rw [hmore, List.append_nil] at hsplit
    exact .inl (hsplit ▸ hw)
  | cons b more =>
    have hb : isBlank b = true := by
      have hnot := not_head_dropWhile (p := (!isBlank ·)) (c := b) (by rw [hmore]; rfl)
      simpa using hnot
    let gap := more.takeWhile isBlank
    let text := more.dropWhile isBlank
    have hgap : ∀ d ∈ gap, isBlank d = true := fun d hd => List.all_eq_true.1 List.all_takeWhile d hd
    have hcs : c :: rest = w ++ b :: (gap ++ text) := by
      rw [← hsplit, hmore, List.takeWhile_append_dropWhile]
    rw [hcs] at h ⊢
    refine .inr ⟨w, b, gap, text, rfl, hw, hb, hgap, fun hnil => ?_, fun d hd => not_head_dropWhile hd,
      fun d hd => ?_⟩
    · obtain ⟨d, hd⟩ : ∃ d, (b :: gap).getLast? = some d := ⟨_, List.getLast?_eq_some_getLast (by simp)⟩
      have hblank : isBlank d = true := by
        rcases List.mem_cons.1 (List.mem_of_getLast? hd) with rfl | hmem
        · exact hb
        · exact hgap d hmem
      have hlast := h.last d (by rw [hnil, List.append_nil, List.getLast?_append, hd]; rfl)
      rw [hblank] at hlast
      simp at hlast
    · refine h.last d ?_
      rw [List.getLast?_append, List.getLast?_cons, List.getLast?_append, hd]
      rfl

theorem exists_spaced {cs : List Char} (h : Trimmed cs) (hne : cs ≠ []) : ∃ ws, Spaced cs ws := by
  generalize hn : cs.length = n
  induction n using Nat.strongRecOn generalizing cs with
  | ind n ih =>
    obtain hw | ⟨w, b, gap, text, rfl, hw, hb, hgap, htext, htrimmed⟩ := h.isWord_or hne
    · exact ⟨[cs], .word hw⟩
    · have hshorter : text.length < n := by
        simp only [List.length_append, List.length_cons] at hn
        omega
      obtain ⟨ws, hws⟩ := ih text.length hshorter htrimmed htext rfl
      obtain ⟨-, -, -, -, v, vs, rfl, -⟩ := hws.exists_head
      exact ⟨_, .gap hw hb hgap hws⟩

/-- On a trimmed line the two passes leave the words, as they are to be put together. -/
theorem normalForm_eq {line : List Char} (h : Trimmed line) : normalForm line = standardForm line := by
  rw [normalForm, standardForm]
  by_cases hnil : uppercase line = []
  · rw [hnil]
    rfl
  · obtain ⟨ws, hws⟩ := exists_spaced h.uppercase hnil
    rw [hws.tighten_squeeze, hws.words_eq]

example : standardForm "load\tr1 ,  8 (r2 )".toList = "LOAD R1,8(R2)".toList := by decide +kernel

theorem mem_squeeze {inRun : Bool} {cs : List Char} {c : Char} (h : c ∈ squeeze inRun cs) : c ∈ cs ∨ c = ' ' := by
  induction cs generalizing inRun with
  | nil => simp [squeeze] at h
  | cons d cs ih =>
    rw [squeeze] at h
    split at h
    · split at h
      · exact (ih h).imp_left (List.mem_cons_of_mem d)
      · rcases List.mem_cons.1 h with rfl | h
        · exact .inr rfl
        · exact (ih h).imp_left (List.mem_cons_of_mem d)
    · rcases List.mem_cons.1 h with rfl | h
      · exact .inl (List.mem_cons_self ..)
      · exact (ih h).imp_left (List.mem_cons_of_mem d)

theorem mem_tighten {after : Bool} {cs : List Char} {c : Char} (h : c ∈ tighten after cs) : c ∈ cs := by
  induction cs generalizing after with
  | nil => simp [tighten] at h
  | cons d cs ih =>
    rw [tighten] at h
    split at h
    · exact List.mem_cons_of_mem d (ih h)
    · rcases List.mem_cons.1 h with rfl | h
      · exact List.mem_cons_self ..
      · exact List.mem_cons_of_mem d (ih h)

/-- Every character of a normal form is its own upper case. -/
theorem upper_of_mem_normalForm {line : List Char} {c : Char} (h : c ∈ normalForm line) : upper c = [c] := by
  rcases mem_squeeze (mem_tighten h) with hc | rfl
  · exact upper_of_mem_uppercase hc
  · decide

end OutOfOrder.Assembly
