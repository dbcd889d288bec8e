import OutOfOrder.Proofs.Loading

/-!
Writing instructions and reading them again. What an instruction prints as is in normal form already, and the
grammar has it as that instruction; so one instruction a line is a program that loads as it was written.
-/

set_option autoImplicit false

namespace OutOfOrder

/-! ### Numbers -/

namespace Numeral

open Assembly

theorem isNumeral_writeNat (n : Nat) : IsNumeral (writeNat n) :=
  ⟨Nat.toDigits_ne_nil, fun _ hc => Nat.isDigit_of_mem_toDigits (by decide) (by decide) hc⟩

theorem ofDigitChars_writeNat (n : Nat) : Nat.ofDigitChars 10 (writeNat n) 0 = n :=
  Nat.ofDigitChars_ten_toDigits

/-- What is written for a number denotes it, the smallest ones included. -/
theorem denotes_writeInt (x : Int) : Denotes (writeInt x) x := by
  cases x with
  | ofNat n =>
    have h := Denotes.plain (isNumeral_writeNat n)
    rw [ofDigitChars_writeNat] at h
    exact h
  | negSucc n =>
    have h := Denotes.minus (isNumeral_writeNat (n + 1))
    rw [ofDigitChars_writeNat] at h
    exact h

end Numeral

theorem Register.names_text (r : Register) : Assembly.Names r.text r :=
  .number (Numeral.isNumeral_writeNat _) (Numeral.ofDigitChars_writeNat _)

namespace Instruction

/-- Exactly the operands of the form that its operation has; without an immediate there, it is zero. -/
def HasForm (i : Instruction) : Prop :=
  match i.opcode with
  | .add | .sub | .mul | .div => i.rd.isSome = true ∧ i.rt.isSome = true ∧ i.imm = 0
  | .addi | .subi | .muli | .divi | .load => i.rd.isSome = true ∧ i.rt = none
  | .store | .beq => i.rd = none ∧ i.rt.isSome = true

end Instruction

namespace Assembly

open Text

variable {text : List Char} {i : Instruction}

/-- What an instruction prints as is the assembly form of it. -/
theorem spells_assembly (h : i.HasForm) : Spells i.assembly { i with text := i.assembly } := by
  obtain ⟨op, rd, rs, rt, imm, carried⟩ := i
  have himm := Numeral.denotes_writeInt imm.toInt
  have hrs := rs.names_text
  cases op
  case add | sub | mul | div =>
    obtain ⟨hrd, hrt, himm⟩ := h
    obtain ⟨rd, rfl⟩ := Option.isSome_iff_exists.1 hrd
    obtain ⟨rt, rfl⟩ := Option.isSome_iff_exists.1 hrt
    obtain rfl : imm = 0 := himm
    exact .register (by simp) rd.names_text hrs rt.names_text (by simp [Instruction.assembly, Instruction.operands])
  case addi | subi | muli | divi =>
    obtain ⟨hrd, hrt⟩ := h
    obtain ⟨rd, rfl⟩ := Option.isSome_iff_exists.1 hrd
    obtain rfl : rt = none := hrt
    exact .immediate (by simp) rd.names_text hrs himm (by simp [Instruction.assembly, Instruction.operands])
  case load =>
    obtain ⟨hrd, hrt⟩ := h
    obtain ⟨rd, rfl⟩ := Option.isSome_iff_exists.1 hrd
    obtain rfl : rt = none := hrt
    exact .load rd.names_text himm hrs (by simp [Instruction.assembly, Instruction.operands])
  case store =>
    obtain ⟨hrd, hrt⟩ := h
    obtain ⟨rt, rfl⟩ := Option.isSome_iff_exists.1 hrt
    obtain rfl : rd = none := hrd
    exact .store hrs himm rt.names_text (by simp [Instruction.assembly, Instruction.operands])
  case beq =>
    obtain ⟨hrd, hrt⟩ := h
    obtain ⟨rt, rfl⟩ := Option.isSome_iff_exists.1 hrt
    obtain rfl : rd = none := hrd
    exact .branch hrs rt.names_text himm (by simp [Instruction.assembly, Instruction.operands])

theorem Spells.hasForm (h : Spells text i) : i.HasForm := by
  cases h with
  | @register op d s t rd rs rt operation =>
    revert operation
    cases op <;> simp [Instruction.HasForm]
  | @immediate op d s i rd rs imm operation =>
    revert operation
    cases op <;> simp [Instruction.HasForm]
  | load | store | branch => simp [Instruction.HasForm]

theorem Spells.text_eq (h : Spells text i) : i.text = text := by
  cases h <;> rfl

/-! ### A spelling is its own normal form -/

/-- The characters of operands. -/
def IsOperandChar (c : Char) : Prop := c.isDigit = true ∨ c ∈ ['R', ',', '(', ')', '+', '-']

theorem IsOperandChar.keeps {c : Char} (h : IsOperandChar c) : isBlank c = false ∧ upper c = [c] := by
  rcases h with hdigit | hmark
  · refine ⟨isBlank_of_isDecimalDigit (isDecimalDigit_of_isDigit hdigit), ?_⟩
    have hall : ∀ n < 128, (Char.ofNat n).isDigit = true → (Char.ofNat n).toUpper = Char.ofNat n := by
      decide +kernel
    have hascii : c.toNat < 128 := by
      simp only [Char.isDigit, ge_iff_le, Bool.and_eq_true, decide_eq_true_eq, UInt32.le_iff_toNat_le] at hdigit
      exact Nat.lt_of_le_of_lt hdigit.2 (by decide)
    have hupper := hall c.toNat hascii
    rw [Char.ofNat_toNat] at hupper
    rw [upper_ascii hascii, hupper hdigit]
  · have hall : ['R', ',', '(', ')', '+', '-'].all (fun c => !isBlank c && upper c == [c]) = true := by decide
    simp only [List.all_eq_true, Bool.and_eq_true, Bool.not_eq_true', beq_iff_eq] at hall
    exact hall c hmark

theorem IsNumeral.operandChars {ds : List Char} (h : IsNumeral ds) : ∀ c ∈ ds, IsOperandChar c :=
  fun c hc => .inl (h.2 c hc)

theorem Names.operandChars {f : List Char} {r : Register} (h : Names f r) : ∀ c ∈ f, IsOperandChar c := by
  cases h with
  | number digits => exact List.forall_mem_cons.2 ⟨.inr (by decide), digits.operandChars⟩

theorem Names.exists_cons {f : List Char} {r : Register} (h : Names f r) : ∃ ds, f = 'R' :: ds := by
  cases h with
  | number digits => exact ⟨_, rfl⟩

theorem Denotes.operandChars {f : List Char} {x : Int} (h : Denotes f x) : ∀ c ∈ f, IsOperandChar c := by
  cases h with
  | plain digits => exact digits.operandChars
  | plus digits | minus digits => exact List.forall_mem_cons.2 ⟨.inr (by decide), digits.operandChars⟩

/-- A mnemonic and, behind the only blank, operands that begin with a register. -/
theorem Spells.exists_operands (h : Spells text i) : ∃ (op : Opcode) (operands : List Char),
    text = op.mnemonic.toList ++ ' ' :: 'R' :: operands ∧ ∀ c ∈ 'R' :: operands, IsOperandChar c := by
  have hcomma : IsOperandChar ',' := .inr (by decide)
  have hopen : IsOperandChar '(' := .inr (by decide)
  have hclose : IsOperandChar ')' := .inr (by decide)
  have hfields : ∃ (op : Opcode) (first rest : List Char) (r : Register),
      text = op.mnemonic.toList ++ ' ' :: (first ++ rest) ∧ Names first r ∧ ∀ c ∈ rest, IsOperandChar c := by
    cases h with
    | register _ hd hs ht htext =>
      refine ⟨_, _, _, _, htext, hd, ?_⟩
      simp only [List.forall_mem_cons, List.forall_mem_append]
      exact ⟨hcomma, hs.operandChars, hcomma, ht.operandChars⟩
    | immediate _ hd hs hi htext =>
      refine ⟨_, _, _, _, htext, hd, ?_⟩
      simp only [List.forall_mem_cons, List.forall_mem_append]
      exact ⟨hcomma, hs.operandChars, hcomma, hi.operandChars⟩
    | load hd hi hs htext =>
      refine ⟨_, _, _, _, htext, hd, ?_⟩
      simp only [List.forall_mem_cons, List.forall_mem_append]
      exact ⟨hcomma, hi.operandChars, hopen, hs.operandChars, hclose, nofun⟩
    | store hs hi ht htext =>
      refine ⟨_, _, _, _, htext, hs, ?_⟩
      simp only [List.forall_mem_cons, List.forall_mem_append]
      exact ⟨hcomma, hi.operandChars, hopen, ht.operandChars, hclose, nofun⟩
    | branch hs ht hi htext =>
      refine ⟨_, _, _, _, htext, hs, ?_⟩
      simp only [List.forall_mem_cons, List.forall_mem_append]
      exact ⟨hcomma, ht.operandChars, hcomma, hi.operandChars⟩
  obtain ⟨op, first, rest, r, htext, hfirst, hrest⟩ := hfields
  obtain ⟨ds, rfl⟩ := hfirst.exists_cons
  exact ⟨op, ds ++ rest, htext, List.forall_mem_append.2 ⟨hfirst.operandChars, hrest⟩⟩

/-- A mnemonic is a word in upper case that ends with no separator. -/
theorem mnemonic_isWord (op : Opcode) : IsWord op.mnemonic.toList ∧
    (∀ c ∈ op.mnemonic.toList, upper c = [c]) ∧ op.mnemonic.toList.getLast?.any isSeparator = false := by
  have hall : op.mnemonic.toList.all (fun c => !isBlank c && upper c == [c]) = true := by cases op <;> decide
  simp only [List.all_eq_true, Bool.and_eq_true, Bool.not_eq_true', beq_iff_eq] at hall
  refine ⟨⟨?_, fun c hc => (hall c hc).1⟩, fun c hc => (hall c hc).2, ?_⟩ <;> cases op <;> decide

/-- The words of a spelling are its mnemonic and its operands. -/
theorem Spells.spaced (h : Spells text i) : ∃ (op : Opcode) (v : List Char),
    text = op.mnemonic.toList ++ ' ' :: v ∧ IsWord v ∧ Spaced text [op.mnemonic.toList, v] ∧
      meetAtSeparator op.mnemonic.toList v = false ∧ ∀ c ∈ text, upper c = [c] := by
  obtain ⟨op, operands, rfl, hchars⟩ := h.exists_operands
  obtain ⟨hword, hfixed, hlast⟩ := mnemonic_isWord op
  have hoperands : IsWord ('R' :: operands) := ⟨by simp, fun c hc => (hchars c hc).keeps.1⟩
  have hgap : ∀ c ∈ ([] : List Char), isBlank c = true := nofun
  refine ⟨op, _, rfl, hoperands, .gap hword (by decide) hgap (.word hoperands), ?_, ?_⟩
  · rw [meetAtSeparator, hlast]
    rfl
  · rw [List.forall_mem_append, List.forall_mem_cons]
    exact ⟨hfixed, by decide, fun c hc => (hchars c hc).keeps.2⟩

theorem Spells.standardForm_eq (h : Spells text i) : standardForm text = text := by
  obtain ⟨op, v, htext, -, hspaced, hmeet, hfixed⟩ := h.spaced
  rw [standardForm, uppercase_of_fixed hfixed, hspaced.words_eq, joinWords, joinWords, hmeet]
  simp [htext]

theorem Spells.trimmed (h : Spells text i) : Trimmed text := by
  obtain ⟨op, v, rfl, hv, -⟩ := h.spaced
  have hop := (mnemonic_isWord op).1
  constructor
  · intro c hc
    rw [List.head?_append_of_ne_nil _ hop.1] at hc
    exact hop.2 c (List.mem_of_head? hc)
  · intro c hc
    rw [← List.singleton_append, ← List.append_assoc, List.getLast?_append_of_ne_nil _ hv.1] at hc
    exact hv.2 c (List.mem_of_getLast? hc)

/-- A spelling is a line of its own: it has no line feed, and it is neither empty nor a comment. -/
theorem Spells.isLine (h : Spells text i) : '\n' ∉ text ∧ text.isEmpty = false ∧ isComment text = false := by
  obtain ⟨op, v, rfl, hv, -⟩ := h.spaced
  have hfeed : ∀ {w : List Char}, IsWord w → '\n' ∉ w := fun hw hmem => by
    have hblank := hw.2 '\n' hmem
    simp [show isBlank '\n' = true by decide] at hblank
  refine ⟨?_, by simp, by cases op <;> rfl⟩
  rw [List.mem_append, List.mem_cons, not_or, not_or]
  exact ⟨hfeed (mnemonic_isWord op).1, by decide, hfeed hv⟩

/-! ### One instruction a line -/

theorem lines_append_cons {w cs : List Char} (h : '\n' ∉ w) : lines (w ++ '\n' :: cs) = w :: lines cs := by
  induction w with
  | nil => rfl
  | cons c w ih =>
    rw [List.mem_cons, not_or] at h
    rw [List.cons_append, lines, if_neg (Ne.symm h.1), ih h.2]

theorem lines_of_not_mem {w : List Char} (h : '\n' ∉ w) : lines w = [w] := by
  induction w with
  | nil => rfl
  | cons c w ih =>
    rw [List.mem_cons, not_or] at h
    rw [lines, if_neg (Ne.symm h.1), ih h.2]

/-- The trimmed lines that hold an instruction. -/
def instructive (ls : List (List Char)) : List (List Char) :=
  (ls.map trim).filter fun line => !line.isEmpty && !isComment line

theorem map_snd_instructionLines (source : List Char) :
    (instructionLines source).map Prod.snd = instructive (lines source) := by
  have hnumbered : lines source = ((lines source).zipIdx 1).map Prod.fst := (List.zipIdx_map_fst 1 _).symm
  conv => rhs; rw [hnumbered, instructive, List.map_map, List.filter_map]
  rw [instructionLines, List.filter_map, List.map_map]
  rfl

theorem Spells.instructive_cons (h : Spells text i) (ls : List (List Char)) :
    instructive (text :: ls) = text :: instructive ls := by
  obtain ⟨-, hne, hcomment⟩ := h.isLine
  rw [instructive, List.map_cons, h.trimmed.trim_eq, List.filter_cons, hne, hcomment]
  rfl

/-- Spellings one below the other are the lines of the source, whether or not a line feed ends the last one. -/
theorem instructive_lines {texts : List (List Char)} (h : ∀ text ∈ texts, ∃ i, Spells text i) {ending : List Char}
    (hending : ending ∈ [[], ['\n']]) : instructive (lines (['\n'].intercalate texts ++ ending)) = texts := by
  induction texts with
  | nil =>
    have hall : ∀ ending ∈ [[], ['\n']], instructive (lines ending) = [] := by decide
    exact hall ending hending
  | cons text rest ih =>
    obtain ⟨⟨i, hi⟩, hrest⟩ := List.forall_mem_cons.1 h
    have hfeed := hi.isLine.1
    cases rest with
    | nil =>
      rcases List.mem_pair.1 hending with rfl | rfl
      · rw [List.intercalate_singleton, List.append_nil, lines_of_not_mem hfeed, hi.instructive_cons]
        rfl
      · rw [List.intercalate_singleton, lines_append_cons hfeed, hi.instructive_cons]
        rfl
    | cons next rest =>
      rw [List.intercalate_cons_cons, List.append_assoc, List.append_assoc, List.singleton_append,
        lines_append_cons hfeed, hi.instructive_cons, ih hrest]

/-! ### The loader -/

section Loader

variable {config : Config} {source : List Char} {code : List Instruction}

theorem load_eq_ok_iff_spells : load config source = .ok code ↔
    List.Forall₂ (fun line i => Spells (standardForm line) i) (instructive (lines source)) code ∧
      ∀ i ∈ code, ∀ r ∈ i.registers, r.index ≤ config.highestArch := by
  rw [load_eq_ok_iff, read_eq_ok_iff, ← outOfRange_eq_nil_iff, ← map_snd_instructionLines,
    List.forall₂_map_left_iff]
  exact and_congr_right fun h => by rw [misfits_eq h]

/-- Spellings one below the other load as the instructions that they spell. -/
theorem load_spellings {texts : List (List Char)} (h : List.Forall₂ Spells texts code)
    (hrange : ∀ i ∈ code, ∀ r ∈ i.registers, r.index ≤ config.highestArch) {ending : List Char}
    (hending : ending ∈ [[], ['\n']]) : load config (['\n'].intercalate texts ++ ending) = .ok code := by
  have htexts : ∀ text ∈ texts, ∃ i, Spells text i :=
    ((List.forall₂_and_left _ _).1 (h.imp fun _ i hi => ⟨⟨i, hi⟩, hi⟩)).1
  rw [load_eq_ok_iff_spells, instructive_lines htexts hending]
  exact ⟨h.imp fun _ _ hi => hi.standardForm_eq.symm ▸ hi, hrange⟩

/-- What was loaded carries its spelling. -/
theorem spells_of_load (h : load config source = .ok code) : ∀ i ∈ code, Spells i.text i := by
  have hspelt := (load_eq_ok_iff_spells.1 h).1
  exact (forall₂_and_right.1 (hspelt.imp fun _ _ hi => ⟨hi, hi.text_eq ▸ hi⟩)).2

end Loader

/-- Instructions of their forms that carry no text, printed one a line, load as they were, each with what it printed
as for its text. And whatever a source has loaded as, the texts that its instructions carry load as the same once
more: they are normal forms, which reading leaves alone. The last line may end with a line feed or not. -/
theorem loading_inverts_printing (config : Config) {ending : List Char} (hending : ending ∈ [[], ['\n']]) :
    (∀ code : List Instruction,
      (∀ i ∈ code, i.text = [] ∧ i.HasForm ∧ ∀ r ∈ i.registers, r.index ≤ config.highestArch) →
      load config (['\n'].intercalate (code.map Instruction.printed) ++ ending) =
        .ok (code.map fun i => { i with text := i.printed })) ∧
    ∀ source code, load config source = .ok code →
      load config (['\n'].intercalate (code.map Instruction.text) ++ ending) = .ok code ∧
      ∀ i ∈ code, i.HasForm ∧ (∀ r ∈ i.registers, r.index ≤ config.highestArch) ∧ i.printed = i.text ∧
        normalForm i.text = i.text := by
  refine ⟨fun code hcode => ?_, fun source code hload => ?_⟩
  · have hspelt : List.Forall₂ Spells (code.map Instruction.printed)
        (code.map fun i => { i with text := i.printed }) := by
      rw [List.forall₂_map_left_iff, List.forall₂_map_right_iff, List.forall₂_same]
      intro i hi
      obtain ⟨htext, hform, -⟩ := hcode i hi
      rw [Instruction.printed, htext]
      exact spells_assembly hform
    refine load_spellings hspelt ?_ hending
    rw [List.forall_mem_map]
    exact fun i hi => (hcode i hi).2.2
  · have hspelt := spells_of_load hload
    have hrange := (load_eq_ok_iff_spells.1 hload).2
    refine ⟨load_spellings ?_ hrange hending, fun i hi => ⟨(hspelt i hi).hasForm, hrange i hi, ?_, ?_⟩⟩
    · rwa [List.forall₂_map_left_iff, List.forall₂_same]
    · rw [Instruction.printed, (hspelt i hi).isLine.2.1]
      rfl
    · rw [normalForm_eq (hspelt i hi).trimmed, (hspelt i hi).standardForm_eq]

/-- The smallest number there is, and a source with leading zeros, a sign and blanks. -/
theorem loading_inverts_printing_smallest :
    let branch : Instruction := ⟨.beq, none, ⟨7⟩, some ⟨16⟩, Int64.minValue, []⟩
    let store : Instruction := ⟨.store, none, ⟨0⟩, some ⟨1⟩, -8, []⟩
    load .standard "BEQ R7,R16,-9223372036854775808\nSTORE R0,-8(R1)\n".toList =
      .ok [{ branch with text := branch.printed }, { store with text := store.printed }] ∧
    ∃ code ∈ (load .standard "  store r007 ,+08( R1)".toList).toOption,
      code.map Instruction.text = ["STORE R007,+08(R1)".toList] ∧
      load .standard "STORE R007,+08(R1)\n".toList = .ok code := by
  intro branch store
  have hending : ['\n'] ∈ [[], ['\n']] := by decide
  obtain ⟨hprinted, hloaded⟩ := loading_inverts_printing .standard hending
  have htext : ['\n'].intercalate ([branch, store].map Instruction.printed) ++ ['\n'] =
      "BEQ R7,R16,-9223372036854775808\nSTORE R0,-8(R1)\n".toList := by
    decide +kernel
  have hload : ∃ code ∈ (load .standard "  store r007 ,+08( R1)".toList).toOption,
      code.map Instruction.text = ["STORE R007,+08(R1)".toList] := by
    decide +kernel
  obtain ⟨code, hcode, htexts⟩ := hload
  have hagain := (hloaded _ code (toOption_eq_some_iff.1 hcode)).1
  rw [htexts] at hagain
  refine ⟨?_, code, hcode, htexts, hagain⟩
  rw [← htext]
  exact hprinted [branch, store] (List.forall_mem_cons.2
    ⟨⟨rfl, ⟨rfl, rfl⟩, by decide⟩, List.forall_mem_singleton.2 ⟨rfl, ⟨rfl, rfl⟩, by decide⟩⟩)

end Assembly

end OutOfOrder
