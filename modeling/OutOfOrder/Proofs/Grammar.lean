import OutOfOrder.Proofs.NormalForm
import OutOfOrder.Proofs.Success

/-!
The grammar of an instruction in normal form, apart from how it is read: a mnemonic and its operands, with ASCII
digits for the numbers. A line is read just when the grammar has it, and as the instruction that it spells. The form
of the operands takes the digits of any script, so it is the number readers that turn the others down.
-/

set_option autoImplicit false

namespace OutOfOrder.Assembly

open Text

/-! ### The grammar -/

def IsNumeral (ds : List Char) : Prop := ds ≠ [] ∧ ∀ c ∈ ds, c.isDigit = true

/-- `R` and a number, leading zeros allowed. -/
inductive Names : List Char → Register → Prop
  | number {ds : List Char} {r : Register} (digits : IsNumeral ds)
      (value : Nat.ofDigitChars 10 ds 0 = r.index.toNat) : Names ('R' :: ds) r

/-- A number with or without a sign. -/
inductive Denotes : List Char → Int → Prop
  | plain {ds : List Char} (digits : IsNumeral ds) : Denotes ds (Nat.ofDigitChars 10 ds 0)
  | plus {ds : List Char} (digits : IsNumeral ds) : Denotes ('+' :: ds) (Nat.ofDigitChars 10 ds 0)
  | minus {ds : List Char} (digits : IsNumeral ds) : Denotes ('-' :: ds) (-Nat.ofDigitChars 10 ds 0)

/-- The text is the assembly form of the instruction, which carries it. A register is any of sixteen bits, an
immediate any of sixty-four. -/
inductive Spells (text : List Char) : Instruction → Prop
  | register {op : Opcode} {d s t : List Char} {rd rs rt : Register} (operation : op ∈ [.add, .sub, .mul, .div])
      (hd : Names d rd) (hs : Names s rs) (ht : Names t rt)
      (form : text = op.mnemonic.toList ++ ' ' :: (d ++ ',' :: (s ++ ',' :: t))) :
      Spells text ⟨op, some rd, rs, some rt, 0, text⟩
  | immediate {op : Opcode} {d s i : List Char} {rd rs : Register} {imm : Int64}
      (operation : op ∈ [.addi, .subi, .muli, .divi])
      (hd : Names d rd) (hs : Names s rs) (hi : Denotes i imm.toInt)
      (form : text = op.mnemonic.toList ++ ' ' :: (d ++ ',' :: (s ++ ',' :: i))) :
      Spells text ⟨op, some rd, rs, none, imm, text⟩
  | load {d i s : List Char} {rd rs : Register} {imm : Int64}
      (hd : Names d rd) (hi : Denotes i imm.toInt) (hs : Names s rs)
      (form : text = Opcode.load.mnemonic.toList ++ ' ' :: (d ++ ',' :: (i ++ '(' :: (s ++ [')'])))) :
      Spells text ⟨.load, some rd, rs, none, imm, text⟩
  | store {s i t : List Char} {rs rt : Register} {imm : Int64}
      (hs : Names s rs) (hi : Denotes i imm.toInt) (ht : Names t rt)
      (form : text = Opcode.store.mnemonic.toList ++ ' ' :: (s ++ ',' :: (i ++ '(' :: (t ++ [')'])))) :
      Spells text ⟨.store, none, rs, some rt, imm, text⟩
  | branch {s t i : List Char} {rs rt : Register} {imm : Int64}
      (hs : Names s rs) (ht : Names t rt) (hi : Denotes i imm.toInt)
      (form : text = Opcode.beq.mnemonic.toList ++ ' ' :: (s ++ ',' :: (t ++ ',' :: i))) :
      Spells text ⟨.beq, none, rs, some rt, imm, text⟩

/-! ### Numbers -/

section Numbers

variable {limit n k : Nat} {overflow : Numeral.Refusal} {cs : List Char}

theorem le_ofDigitChars (cs : List Char) (k : Nat) : k ≤ Nat.ofDigitChars 10 cs k := by
  induction cs generalizing k with
  | nil => simp
  | cons c cs ih =>
    rw [Nat.ofDigitChars_cons]
    have hle := ih (10 * k + (c.toNat - '0'.toNat))
    omega

theorem readOnto_eq_ok_iff (hk : k ≤ limit) : Numeral.readOnto limit overflow k cs = .ok n ↔
    (∀ c ∈ cs, c.isDigit = true) ∧ Nat.ofDigitChars 10 cs k = n ∧ n ≤ limit := by
  induction cs generalizing k with
  | nil =>
    simp only [Numeral.readOnto, Except.ok.injEq, Nat.ofDigitChars_nil]
    constructor
    · rintro rfl
      exact ⟨nofun, rfl, hk⟩
    · exact fun h => h.2.1
  | cons c cs ih =>
    rw [Nat.ofDigitChars_cons, List.forall_mem_cons, Numeral.readOnto]
    by_cases hc : c.isDigit = true
    · by_cases hle : 10 * k + Numeral.digitValue c ≤ limit
      · rw [if_pos hc, if_pos hle, ih hle, Numeral.digitValue, and_iff_right hc]
      · rw [if_pos hc, if_neg hle]
        refine ⟨nofun, fun ⟨_, hn, hlimit⟩ => ?_⟩
        have hgrows := le_ofDigitChars cs (10 * k + (c.toNat - '0'.toNat))
        rw [Numeral.digitValue] at hle
        omega
    · rw [if_neg hc]
      exact ⟨nofun, fun h => absurd h.1.1 hc⟩

theorem readDigits_eq_ok_iff : Numeral.readDigits limit overflow cs = .ok n ↔
    IsNumeral cs ∧ Nat.ofDigitChars 10 cs 0 = n ∧ n ≤ limit := by
  cases cs with
  | nil => exact ⟨nofun, fun h => absurd rfl h.1.1⟩
  | cons c cs =>
    rw [Numeral.readDigits, readOnto_eq_ok_iff (Nat.zero_le limit), IsNumeral, and_assoc]
    simp

/-- A number begins with a sign or a digit; a sign is no digit. -/
theorem Denotes.of_plain {x : Int} (h : Denotes cs x) (hplus : ∀ ds, cs ≠ '+' :: ds)
    (hminus : ∀ ds, cs ≠ '-' :: ds) : IsNumeral cs ∧ x = Nat.ofDigitChars 10 cs 0 := by
  cases h with
  | plain digits => exact ⟨digits, rfl⟩
  | plus digits => exact absurd rfl (hplus _)
  | minus digits => exact absurd rfl (hminus _)

theorem not_isNumeral_cons {c : Char} {ds : List Char} (hc : c.isDigit = false) : ¬IsNumeral (c :: ds) := by
  intro h
  have hdigit := h.2 c (List.mem_cons_self ..)
  rw [hc] at hdigit
  simp at hdigit

theorem readSigned_eq_ok_iff {x : Int} : Numeral.readSigned limit cs = .ok x ↔
    Denotes cs x ∧ -(limit + 1 : Int) ≤ x ∧ x ≤ limit := by
  unfold Numeral.readSigned
  split
  · refine ⟨nofun, fun ⟨h, _⟩ => ?_⟩
    cases h with
    | plain digits => exact absurd rfl digits.1
  · next ds =>
    simp only [map_eq_ok_iff, bind_eq_ok_iff, pure_eq_ok_iff, readDigits_eq_ok_iff]
    constructor
    · rintro ⟨n, ⟨k, ⟨hds, rfl, hle⟩, rfl⟩, rfl⟩
      exact ⟨.minus hds, by omega, by omega⟩
    · rintro ⟨h, hlow, -⟩
      cases h with
      | plain digits => exact absurd digits (not_isNumeral_cons (by decide))
      | minus digits => exact ⟨_, ⟨_, ⟨digits, rfl, by omega⟩, rfl⟩, rfl⟩
  · next ds =>
    simp only [map_eq_ok_iff, readDigits_eq_ok_iff]
    constructor
    · rintro ⟨n, ⟨hds, rfl, hle⟩, rfl⟩
      exact ⟨.plus hds, by simp only [Int.ofNat_eq_natCast]; omega, by simpa using hle⟩
    · rintro ⟨h, -, hhigh⟩
      cases h with
      | plain digits => exact absurd digits (not_isNumeral_cons (by decide))
      | plus digits => exact ⟨_, ⟨digits, rfl, by omega⟩, rfl⟩
  · next hminus hplus =>
    simp only [map_eq_ok_iff, readDigits_eq_ok_iff]
    constructor
    · rintro ⟨n, ⟨hds, rfl, hle⟩, rfl⟩
      exact ⟨.plain hds, by simp only [Int.ofNat_eq_natCast]; omega, by simpa using hle⟩
    · rintro ⟨h, -, hhigh⟩
      obtain ⟨digits, rfl⟩ := h.of_plain (fun ds he => hplus ds he) fun ds he => hminus ds he
      exact ⟨_, ⟨digits, rfl, by omega⟩, rfl⟩

theorem readImmediate_eq_ok_iff {field : List Char} {imm : Int64} :
    readImmediate field = .ok imm ↔ Denotes field imm.toInt := by
  have hlow := Int64.le_toInt imm
  have hhigh := Int64.toInt_lt imm
  unfold readImmediate
  split
  · next x hx =>
    obtain ⟨hdenotes, hmin, hmax⟩ := readSigned_eq_ok_iff.1 hx
    have hround : (Int64.ofInt x).toInt = x := Int64.toInt_ofInt_of_le (by omega) (by omega)
    rw [Except.ok.injEq]
    constructor
    · rintro rfl
      rwa [hround]
    · intro h
      have hsame := hx.symm.trans (readSigned_eq_ok_iff.2 ⟨h, by omega, by omega⟩)
      rw [Except.ok.inj hsame, Int64.ofInt_toInt]
  · next cause hx =>
    refine ⟨nofun, fun h => ?_⟩
    rw [readSigned_eq_ok_iff.2 ⟨h, by omega, by omega⟩] at hx
    simp at hx

end Numbers

/-! ### Fields -/

/-- Digits of any script, as the forms of the operands take them. -/
def DecimalRun (ds : List Char) : Prop := ds ≠ [] ∧ ∀ c ∈ ds, isDecimalDigit c = true

theorem IsNumeral.decimalRun {ds : List Char} (h : IsNumeral ds) : DecimalRun ds :=
  ⟨h.1, fun c hc => isDecimalDigit_of_isDigit (h.2 c hc)⟩

theorem isBlank_of_isDecimalDigit {c : Char} (h : isDecimalDigit c = true) : isBlank c = false := by
  have hall : ∀ run ∈ digitRuns, ∀ d < run.2 - run.1 + 1, isBlank (Char.ofNat (run.1 + d)) = false := by
    decide +kernel
  obtain ⟨run, hrun, hfirst, hlast⟩ : ∃ run ∈ digitRuns, run.1 ≤ c.toNat ∧ c.toNat ≤ run.2 := by
    rw [isDecimalDigit, Bool.or_eq_true] at h
    rcases h with h | h
    · simp only [Char.isDigit, ge_iff_le, Bool.and_eq_true, decide_eq_true_eq, UInt32.le_iff_toNat_le] at h
      exact ⟨(0x30, 0x39), List.mem_cons_self .., h⟩
    · obtain ⟨run, hrun, hin⟩ := List.any_eq_true.1 h
      exact ⟨run, hrun, by simpa using hin⟩
  have hblank := hall run hrun (c.toNat - run.1) (by omega)
  rwa [Nat.add_sub_cancel' hfirst, Char.ofNat_toNat] at hblank

theorem trim_of_word {w : List Char} (h : ∀ c ∈ w, isBlank c = false) : trim w = w :=
  Trimmed.trim_eq ⟨fun c hc => h c (List.mem_of_head? hc), fun c hc => h c (List.mem_of_getLast? hc)⟩

theorem readRegister_eq_ok_iff {ds : List Char} (hrun : DecimalRun ds) (hfixed : ∀ c ∈ ds, upper c = [c])
    {r : Register} : readRegister ('R' :: ds) = .ok r ↔ Names ('R' :: ds) r := by
  have hupper : uppercase (trim ('R' :: ds)) = 'R' :: ds := by
    rw [trim_of_word (List.forall_mem_cons.2 ⟨by decide, fun c hc => isBlank_of_isDecimalDigit (hrun.2 c hc)⟩),
      uppercase_of_fixed (List.forall_mem_cons.2 ⟨by decide, hfixed⟩)]
  have hread : Numeral.readUnsigned 0xFFFF ds = Numeral.readDigits 0xFFFF .tooLarge ds := by
    unfold Numeral.readUnsigned
    split
    · exact absurd rfl hrun.1
    · have hplus := hrun.2 '+' (List.mem_cons_self ..)
      simp [show isDecimalDigit '+' = false by decide] at hplus
    · rfl
  unfold readRegister Register.read
  rw [hupper]
  simp only [hread]
  cases hdigits : Numeral.readDigits 0xFFFF .tooLarge ds with
  | ok n =>
    obtain ⟨hds, rfl, hle⟩ := readDigits_eq_ok_iff.1 hdigits
    have hround : (UInt16.ofNat (Nat.ofDigitChars 10 ds 0)).toNat = Nat.ofDigitChars 10 ds 0 :=
      UInt16.toNat_ofNat_of_lt' (Nat.lt_succ_of_le hle)
    simp only [Except.ok.injEq]
    constructor
    · rintro rfl
      exact .number hds hround.symm
    · rintro ⟨-, hvalue⟩
      rw [hvalue, UInt16.ofNat_toNat]
  | error cause =>
    refine ⟨nofun, fun ⟨hds, hvalue⟩ => ?_⟩
    have hle : Nat.ofDigitChars 10 ds 0 ≤ 0xFFFF := hvalue ▸ Nat.le_of_lt_succ r.index.toNat_lt
    rw [readDigits_eq_ok_iff.2 ⟨hds, rfl, hle⟩] at hdigits
    simp at hdigits

/-! ### Forms -/

def RegisterField (field : List Char) : Prop := ∃ ds, field = 'R' :: ds ∧ DecimalRun ds

def ImmediateField (field : List Char) : Prop :=
  DecimalRun field ∨ ∃ ds, (field = '+' :: ds ∨ field = '-' :: ds) ∧ DecimalRun ds

/-- Nothing that prolongs a run of digits. -/
def Ends (rest : List Char) : Prop := ∀ c ∈ rest.head?, isDecimalDigit c = false

/-- A text that fills a form, and its fields in order. -/
inductive Fills : List Piece → List Char → List (List Char) → Prop
  | nil : Fills [] [] []
  | mark {c : Char} {pieces : List Piece} {rest : List Char} {fields : List (List Char)}
      (more : Fills pieces rest fields) : Fills (.mark c :: pieces) (c :: rest) fields
  | register {pieces : List Piece} {field rest : List Char} {fields : List (List Char)}
      (shape : RegisterField field) (ends : Ends rest) (more : Fills pieces rest fields) :
      Fills (.register :: pieces) (field ++ rest) (field :: fields)
  | immediate {pieces : List Piece} {field rest : List Char} {fields : List (List Char)}
      (shape : ImmediateField field) (ends : Ends rest) (more : Fills pieces rest fields) :
      Fills (.immediate :: pieces) (field ++ rest) (field :: fields)

theorem Fills.fixed {pieces : List Piece} {cs : List Char} {fields : List (List Char)} (h : Fills pieces cs fields)
    (hfixed : ∀ c ∈ cs, upper c = [c]) : ∀ field ∈ fields, ∀ c ∈ field, upper c = [c] := by
  induction h with
  | nil => exact nofun
  | mark more ih => exact ih fun c hc => hfixed c (List.mem_cons_of_mem _ hc)
  | register shape ends more ih | immediate shape ends more ih =>
    exact List.forall_mem_cons.2 ⟨fun c hc => hfixed c (List.mem_append_left _ hc),
      ih fun c hc => hfixed c (List.mem_append_right _ hc)⟩

section Forms

variable {cs ds rest field : List Char}

theorem takeDigits_eq_some_iff :
    takeDigits cs = some (ds, rest) ↔ cs = ds ++ rest ∧ DecimalRun ds ∧ Ends rest := by
  constructor
  · intro h
    unfold takeDigits at h
    cases hdigits : cs.takeWhile isDecimalDigit with
    | nil => simp [hdigits] at h
    | cons c digits =>
      simp only [hdigits, Option.some.injEq, Prod.mk.injEq] at h
      obtain ⟨rfl, rfl⟩ := h
      refine ⟨?_, ⟨List.cons_ne_nil c digits, fun d hd => ?_⟩, fun d hd => not_head_dropWhile hd⟩
      · rw [← hdigits, List.takeWhile_append_dropWhile]
      · rw [← hdigits] at hd
        exact List.all_eq_true.1 List.all_takeWhile d hd
  · rintro ⟨rfl, hrun, hends⟩
    have hstop : rest.takeWhile isDecimalDigit = [] ∧ rest.dropWhile isDecimalDigit = rest := by
      cases rest with
      | nil => exact ⟨rfl, rfl⟩
      | cons c rest => simp [hends c rfl]
    unfold takeDigits
    rw [List.takeWhile_append_of_pos hrun.2, List.dropWhile_append_of_pos hrun.2, hstop.1, hstop.2,
      List.append_nil]
    cases ds with
    | nil => exact absurd rfl hrun.1
    | cons c ds => rfl

theorem takeRegister_eq_some_iff :
    takeRegister cs = some (field, rest) ↔ cs = field ++ rest ∧ RegisterField field ∧ Ends rest := by
  constructor
  · intro h
    unfold takeRegister at h
    split at h
    · obtain ⟨⟨ds, after⟩, hdigits, he⟩ := Option.map_eq_some_iff.1 h
      obtain ⟨rfl, hrun, hends⟩ := takeDigits_eq_some_iff.1 hdigits
      obtain ⟨rfl, rfl⟩ := Prod.mk.inj he
      exact ⟨rfl, ⟨ds, rfl, hrun⟩, hends⟩
    · simp at h
  · rintro ⟨rfl, ⟨ds, rfl, hrun⟩, hends⟩
    rw [List.cons_append, takeRegister, takeDigits_eq_some_iff.2 ⟨rfl, hrun, hends⟩]
    rfl

theorem takeImmediate_eq_some_iff :
    takeImmediate cs = some (field, rest) ↔ cs = field ++ rest ∧ ImmediateField field ∧ Ends rest := by
  constructor
  · intro h
    unfold takeImmediate at h
    split at h
    · obtain ⟨⟨ds, after⟩, hdigits, he⟩ := Option.map_eq_some_iff.1 h
      obtain ⟨rfl, hrun, hends⟩ := takeDigits_eq_some_iff.1 hdigits
      obtain ⟨rfl, rfl⟩ := Prod.mk.inj he
      exact ⟨rfl, .inr ⟨ds, .inl rfl, hrun⟩, hends⟩
    · obtain ⟨⟨ds, after⟩, hdigits, he⟩ := Option.map_eq_some_iff.1 h
      obtain ⟨rfl, hrun, hends⟩ := takeDigits_eq_some_iff.1 hdigits
      obtain ⟨rfl, rfl⟩ := Prod.mk.inj he
      exact ⟨rfl, .inr ⟨ds, .inr rfl, hrun⟩, hends⟩
    · obtain ⟨rfl, hrun, hends⟩ := takeDigits_eq_some_iff.1 h
      exact ⟨rfl, .inl hrun, hends⟩
  · rintro ⟨rfl, hrun | ⟨ds, rfl | rfl, hrun⟩, hends⟩
    · have hsign : ∀ {c : Char}, isDecimalDigit c = false → ∀ more, field ++ rest ≠ c :: more := by
        intro c hc more he
        cases field with
        | nil => exact hrun.1 rfl
        | cons d field =>
          obtain ⟨rfl, -⟩ := List.cons.inj he
          rw [hrun.2 d (List.mem_cons_self ..)] at hc
          simp at hc
      unfold takeImmediate
      split
      · next he => exact absurd he (hsign (by decide) _)
      · next he => exact absurd he (hsign (by decide) _)
      · exact takeDigits_eq_some_iff.2 ⟨rfl, hrun, hends⟩
    · rw [List.cons_append, takeImmediate, takeDigits_eq_some_iff.2 ⟨rfl, hrun, hends⟩]
      rfl
    · rw [List.cons_append, takeImmediate, takeDigits_eq_some_iff.2 ⟨rfl, hrun, hends⟩]
      rfl

theorem matchForm_eq_some_iff {pieces : List Piece} {fields : List (List Char)} :
    matchForm pieces cs = some fields ↔ Fills pieces cs fields := by
  induction pieces generalizing cs fields with
  | nil =>
    cases cs with
    | nil =>
      rw [matchForm, Option.some.injEq]
      exact ⟨fun h => h ▸ .nil, fun h => by cases h; rfl⟩
    | cons c cs => exact ⟨nofun, nofun⟩
  | cons piece pieces ih =>
    cases piece with
    | mark c =>
      cases cs with
      | nil => exact ⟨nofun, nofun⟩
      | cons d cs =>
        rw [matchForm]
        constructor
        · intro h
          split at h
          · next hcd => exact hcd ▸ .mark (ih.1 h)
          · simp at h
        · intro h
          cases h with
          | mark more => rw [if_pos rfl, ih.2 more]
    | register =>
      rw [matchForm]
      simp only [Option.bind_eq_bind, Option.bind_eq_some_iff, Option.pure_def, Option.some.injEq, Prod.exists,
        takeRegister_eq_some_iff, ih]
      constructor
      · rintro ⟨field, rest, ⟨rfl, shape, ends⟩, fields, more, rfl⟩
        exact .register shape ends more
      · intro h
        cases h with
        | register shape ends more => exact ⟨_, _, ⟨rfl, shape, ends⟩, _, more, rfl⟩
    | immediate =>
      rw [matchForm]
      simp only [Option.bind_eq_bind, Option.bind_eq_some_iff, Option.pure_def, Option.some.injEq, Prod.exists,
        takeImmediate_eq_some_iff, ih]
      constructor
      · rintro ⟨field, rest, ⟨rfl, shape, ends⟩, fields, more, rfl⟩
        exact .immediate shape ends more
      · intro h
        cases h with
        | immediate shape ends more => exact ⟨_, _, ⟨rfl, shape, ends⟩, _, more, rfl⟩

end Forms

section Separated

variable {pieces : List Piece} {cs f g k : List Char} {fields : List (List Char)}

theorem fills_register_mark {c : Char} (hc : isDecimalDigit c = false) :
    Fills (.register :: .mark c :: pieces) cs (f :: fields) ↔
      RegisterField f ∧ ∃ rest, cs = f ++ c :: rest ∧ Fills pieces rest fields := by
  constructor
  · intro h
    cases h with
    | register shape _ more =>
      cases more with
      | mark more => exact ⟨shape, _, rfl, more⟩
  · rintro ⟨shape, rest, rfl, more⟩
    exact .register shape (fun d hd => Option.some.inj hd ▸ hc) (.mark more)

theorem fills_immediate_mark {c : Char} (hc : isDecimalDigit c = false) :
    Fills (.immediate :: .mark c :: pieces) cs (f :: fields) ↔
      ImmediateField f ∧ ∃ rest, cs = f ++ c :: rest ∧ Fills pieces rest fields := by
  constructor
  · intro h
    cases h with
    | immediate shape _ more =>
      cases more with
      | mark more => exact ⟨shape, _, rfl, more⟩
  · rintro ⟨shape, rest, rfl, more⟩
    exact .immediate shape (fun d hd => Option.some.inj hd ▸ hc) (.mark more)

theorem fills_register : Fills [.register] cs (f :: fields) ↔ RegisterField f ∧ cs = f ∧ fields = [] := by
  constructor
  · intro h
    cases h with
    | register shape _ more =>
      cases more with
      | nil => exact ⟨shape, List.append_nil f, rfl⟩
  · rintro ⟨shape, rfl, rfl⟩
    have h := Fills.register shape (show Ends [] from nofun) .nil
    rwa [List.append_nil] at h

theorem fills_immediate : Fills [.immediate] cs (f :: fields) ↔ ImmediateField f ∧ cs = f ∧ fields = [] := by
  constructor
  · intro h
    cases h with
    | immediate shape _ more =>
      cases more with
      | nil => exact ⟨shape, List.append_nil f, rfl⟩
  · rintro ⟨shape, rfl, rfl⟩
    have h := Fills.immediate shape (show Ends [] from nofun) .nil
    rwa [List.append_nil] at h

theorem comma_ends : isDecimalDigit ',' = false := by decide

theorem parenthesis_ends : isDecimalDigit '(' = false ∧ isDecimalDigit ')' = false := by decide

/-- Three registers. -/
theorem fills_registers : Fills [.register, .mark ',', .register, .mark ',', .register] cs [f, g, k] ↔
    RegisterField f ∧ RegisterField g ∧ RegisterField k ∧ cs = f ++ ',' :: (g ++ ',' :: k) := by
  simp only [fills_register_mark comma_ends, fills_register]
  constructor
  · rintro ⟨hf, _, rfl, hg, _, rfl, hk, rfl, -⟩
    exact ⟨hf, hg, hk, rfl⟩
  · rintro ⟨hf, hg, hk, rfl⟩
    exact ⟨hf, _, rfl, hg, _, rfl, hk, rfl, trivial⟩

/-- Two registers and a number. -/
theorem fills_registers_immediate :
    Fills [.register, .mark ',', .register, .mark ',', .immediate] cs [f, g, k] ↔
      RegisterField f ∧ RegisterField g ∧ ImmediateField k ∧ cs = f ++ ',' :: (g ++ ',' :: k) := by
  simp only [fills_register_mark comma_ends, fills_immediate]
  constructor
  · rintro ⟨hf, _, rfl, hg, _, rfl, hk, rfl, -⟩
    exact ⟨hf, hg, hk, rfl⟩
  · rintro ⟨hf, hg, hk, rfl⟩
    exact ⟨hf, _, rfl, hg, _, rfl, hk, rfl, trivial⟩

/-- A register and an address: a number, and a register in parentheses. -/
theorem fills_address :
    Fills [.register, .mark ',', .immediate, .mark '(', .register, .mark ')'] cs [f, g, k] ↔
      RegisterField f ∧ ImmediateField g ∧ RegisterField k ∧ cs = f ++ ',' :: (g ++ '(' :: (k ++ [')'])) := by
  simp only [fills_register_mark comma_ends, fills_immediate_mark parenthesis_ends.1,
    fills_register_mark parenthesis_ends.2]
  constructor
  · rintro ⟨hf, _, rfl, hg, _, rfl, hk, _, rfl, hnil⟩
    cases hnil
    exact ⟨hf, hg, hk, rfl⟩
  · rintro ⟨hf, hg, hk, rfl⟩
    exact ⟨hf, _, rfl, hg, _, rfl, hk, _, rfl, .nil⟩

end Separated

/-! ### Instructions -/

theorem Names.field {f : List Char} {r : Register} (h : Names f r) : RegisterField f := by
  cases h with
  | number digits => exact ⟨_, rfl, digits.decimalRun⟩

theorem Denotes.field {f : List Char} {x : Int} (h : Denotes f x) : ImmediateField f := by
  cases h with
  | plain digits => exact .inl digits.decimalRun
  | plus digits => exact .inr ⟨_, .inl rfl, digits.decimalRun⟩
  | minus digits => exact .inr ⟨_, .inr rfl, digits.decimalRun⟩

theorem read_mnemonic (op : Opcode) : Opcode.read op.mnemonic.toList = some op := by
  cases op <;> decide

theorem mem_mnemonic_ne (op : Opcode) : ∀ c ∈ op.mnemonic.toList, (c != ' ') = true := by
  have hall : (op.mnemonic.toList.all (· != ' ')) = true := by cases op <;> decide
  exact List.all_eq_true.1 hall

/-- A text is read as a mnemonic, a blank and operands of the form of the operation. -/
theorem readNormal_eq_ok_iff_fills {text : List Char} (hfixed : ∀ c ∈ text, upper c = [c]) {i : Instruction} :
    readNormal text = .ok i ↔ ∃ op operands f g h, text = op.mnemonic.toList ++ ' ' :: operands ∧
      Fills (form op) operands [f, g, h] ∧ decode op f g h text = .ok i := by
  constructor
  · intro h
    unfold readNormal at h
    cases hop : Opcode.read (text.takeWhile (· != ' ')) with
    | none => simp [hop] at h
    | some op =>
      have hmnemonic : op.mnemonic.toList = text.takeWhile (· != ' ') := by
        have hread := List.find?_some hop
        rw [decide_eq_true_eq] at hread
        rw [hread]
        exact uppercase_of_fixed fun c hc => hfixed c (List.takeWhile_subset _ hc)
      simp only [hop] at h
      cases hrest : text.dropWhile (· != ' ') with
      | nil => simp [hrest] at h
      | cons c operands =>
        simp only [hrest] at h
        obtain rfl : c = ' ' := by
          have hnot := not_head_dropWhile (p := (· != ' ')) (c := c) (by rw [hrest]; rfl)
          simpa using hnot
        split at h
        · next f g k hform =>
          refine ⟨op, operands, f, g, k, ?_, matchForm_eq_some_iff.1 hform, h⟩
          rw [hmnemonic, ← hrest, List.takeWhile_append_dropWhile]
        · simp at h
  · rintro ⟨op, operands, f, g, k, htext, hfills, hdecode⟩
    have htake : text.takeWhile (· != ' ') = op.mnemonic.toList := by
      rw [htext, List.takeWhile_append_of_pos (mem_mnemonic_ne op)]
      simp
    have hdrop : text.dropWhile (· != ' ') = ' ' :: operands := by
      rw [htext, List.dropWhile_append_of_pos (mem_mnemonic_ne op)]
      simp
    unfold readNormal
    simp only [htake, hdrop, read_mnemonic, matchForm_eq_some_iff.2 hfills]
    exact hdecode

section Reading

variable {text operands f g k : List Char} {op : Opcode} {i : Instruction}

theorem RegisterField.names (hf : RegisterField f) (hfixed : ∀ c ∈ f, upper c = [c]) {r : Register}
    (h : readRegister f = .ok r) : Names f r := by
  obtain ⟨ds, rfl, hrun⟩ := hf
  exact (readRegister_eq_ok_iff hrun fun c hc => hfixed c (List.mem_cons_of_mem _ hc)).1 h

theorem Names.readRegister_eq {r : Register} (h : Names f r) (hfixed : ∀ c ∈ f, upper c = [c]) :
    readRegister f = .ok r := by
  obtain ⟨ds, rfl, hrun⟩ := h.field
  exact (readRegister_eq_ok_iff hrun fun c hc => hfixed c (List.mem_cons_of_mem _ hc)).2 h

theorem Spells.of_decode (hfixed : ∀ c ∈ text, upper c = [c]) (htext : text = op.mnemonic.toList ++ ' ' :: operands)
    (hfills : Fills (form op) operands [f, g, k]) (h : decode op f g k text = .ok i) : Spells text i := by
  have hfields : ∀ field ∈ [f, g, k], ∀ c ∈ field, upper c = [c] :=
    hfills.fixed fun c hc => hfixed c (by rw [htext]; simp [hc])
  have hf := hfields f (by simp)
  have hg := hfields g (by simp)
  have hk := hfields k (by simp)
  cases op
  case add | sub | mul | div =>
    obtain ⟨df, dg, dk, rfl⟩ := fills_registers.1 hfills
    simp only [decode, bind_eq_ok_iff, pure_eq_ok_iff] at h
    obtain ⟨rd, hrd, rs, hrs, rt, hrt, rfl⟩ := h
    exact .register (by simp) (df.names hf hrd) (dg.names hg hrs) (dk.names hk hrt) htext
  case addi | subi | muli | divi =>
    obtain ⟨df, dg, -, rfl⟩ := fills_registers_immediate.1 hfills
    simp only [decode, bind_eq_ok_iff, pure_eq_ok_iff] at h
    obtain ⟨rd, hrd, rs, hrs, imm, himm, rfl⟩ := h
    exact .immediate (by simp) (df.names hf hrd) (dg.names hg hrs) (readImmediate_eq_ok_iff.1 himm) htext
  case load =>
    obtain ⟨df, -, dk, rfl⟩ := fills_address.1 hfills
    simp only [decode, bind_eq_ok_iff, pure_eq_ok_iff] at h
    obtain ⟨rd, hrd, rs, hrs, imm, himm, rfl⟩ := h
    exact .load (df.names hf hrd) (readImmediate_eq_ok_iff.1 himm) (dk.names hk hrs) htext
  case store =>
    obtain ⟨df, -, dk, rfl⟩ := fills_address.1 hfills
    simp only [decode, bind_eq_ok_iff, pure_eq_ok_iff] at h
    obtain ⟨rs, hrs, rt, hrt, imm, himm, rfl⟩ := h
    exact .store (df.names hf hrs) (readImmediate_eq_ok_iff.1 himm) (dk.names hk hrt) htext
  case beq =>
    obtain ⟨df, dg, -, rfl⟩ := fills_registers_immediate.1 hfills
    simp only [decode, bind_eq_ok_iff, pure_eq_ok_iff] at h
    obtain ⟨rs, hrs, rt, hrt, imm, himm, rfl⟩ := h
    exact .branch (df.names hf hrs) (dg.names hg hrt) (readImmediate_eq_ok_iff.1 himm) htext

theorem Spells.exists_decode (hfixed : ∀ c ∈ text, upper c = [c]) (h : Spells text i) :
    ∃ op operands f g k, text = op.mnemonic.toList ++ ' ' :: operands ∧
      Fills (form op) operands [f, g, k] ∧ decode op f g k text = .ok i := by
  have reads : ∀ {op : Opcode} {operands field : List Char} {fields : List (List Char)} {r : Register},
      text = op.mnemonic.toList ++ ' ' :: operands → Fills (form op) operands fields → field ∈ fields →
        Names field r → readRegister field = .ok r := fun htext hfills hmem hr =>
    hr.readRegister_eq (hfills.fixed (fun c hc => hfixed c (by rw [htext]; simp [hc])) _ hmem)
  cases h with
  | @register op d s t rd rs rt operation hd hs ht htext =>
    have hform : form op = form .add := by
      revert operation
      cases op <;> simp [form]
    have hfills : Fills (form op) (d ++ ',' :: (s ++ ',' :: t)) [d, s, t] :=
      hform ▸ fills_registers.2 ⟨hd.field, hs.field, ht.field, rfl⟩
    refine ⟨op, _, d, s, t, htext, hfills, ?_⟩
    have hrd := reads htext hfills (by simp) hd
    have hrs := reads htext hfills (by simp) hs
    have hrt := reads htext hfills (by simp) ht
    revert operation
    cases op <;> simp [decode, hrd, hrs, hrt, bind, Except.bind, pure, Except.pure]
  | @immediate op d s i rd rs imm operation hd hs hi htext =>
    have hform : form op = form .addi := by
      revert operation
      cases op <;> simp [form]
    have hfills : Fills (form op) (d ++ ',' :: (s ++ ',' :: i)) [d, s, i] :=
      hform ▸ fills_registers_immediate.2 ⟨hd.field, hs.field, hi.field, rfl⟩
    refine ⟨op, _, d, s, i, htext, hfills, ?_⟩
    have hrd := reads htext hfills (by simp) hd
    have hrs := reads htext hfills (by simp) hs
    have himm := readImmediate_eq_ok_iff.2 hi
    revert operation
    cases op <;> simp [decode, hrd, hrs, himm, bind, Except.bind, pure, Except.pure]
  | @load d i s rd rs imm hd hi hs htext =>
    have hfills : Fills (form .load) (d ++ ',' :: (i ++ '(' :: (s ++ [')']))) [d, i, s] :=
      fills_address.2 ⟨hd.field, hi.field, hs.field, rfl⟩
    refine ⟨.load, _, d, i, s, htext, hfills, ?_⟩
    simp only [decode, reads htext hfills (by simp) hd, reads htext hfills (by simp) hs,
      readImmediate_eq_ok_iff.2 hi, bind, Except.bind, pure, Except.pure]
  | @store s i t rs rt imm hs hi ht htext =>
    have hfills : Fills (form .store) (s ++ ',' :: (i ++ '(' :: (t ++ [')']))) [s, i, t] :=
      fills_address.2 ⟨hs.field, hi.field, ht.field, rfl⟩
    refine ⟨.store, _, s, i, t, htext, hfills, ?_⟩
    simp only [decode, reads htext hfills (by simp) hs, reads htext hfills (by simp) ht,
      readImmediate_eq_ok_iff.2 hi, bind, Except.bind, pure, Except.pure]
  | @branch s t i rs rt imm hs ht hi htext =>
    have hfills : Fills (form .beq) (s ++ ',' :: (t ++ ',' :: i)) [s, t, i] :=
      fills_registers_immediate.2 ⟨hs.field, ht.field, hi.field, rfl⟩
    refine ⟨.beq, _, s, t, i, htext, hfills, ?_⟩
    simp only [decode, reads htext hfills (by simp) hs, reads htext hfills (by simp) ht,
      readImmediate_eq_ok_iff.2 hi, bind, Except.bind, pure, Except.pure]

end Reading

/-- In a text that is its own upper case, what is read is what the grammar has. -/
theorem readNormal_eq_ok_iff {text : List Char} (hfixed : ∀ c ∈ text, upper c = [c]) {i : Instruction} :
    readNormal text = .ok i ↔ Spells text i := by
  rw [readNormal_eq_ok_iff_fills hfixed]
  constructor
  · rintro ⟨op, operands, f, g, k, htext, hfills, hdecode⟩
    exact .of_decode hfixed htext hfills hdecode
  · exact fun h => h.exists_decode hfixed

/-- A trimmed line is read just when the grammar has its standard form. -/
theorem readLine_eq_ok_iff {line : List Char} (h : Trimmed line) {i : Instruction} :
    readLine line = .ok i ↔ Spells (standardForm line) i := by
  rw [readLine, readNormal_eq_ok_iff fun c hc => upper_of_mem_normalForm hc, normalForm_eq h]

end OutOfOrder.Assembly
