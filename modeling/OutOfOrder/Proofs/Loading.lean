import OutOfOrder.Proofs.Grammar
import OutOfOrder.Proofs.Integrity

/-!
What the loader makes of a source: its instructions when the grammar has every line and the registers are in range,
else the first line that the grammar does not have, else all that is out of range.
-/

set_option autoImplicit false

namespace OutOfOrder

/-! ### Loops that stop at the first error -/

section Loops

variable {ε α β : Type} {f : α → Except ε β}

theorem mapM_eq_ok_iff {xs : List α} {ys : List β} :
    xs.mapM f = .ok ys ↔ List.Forall₂ (fun x y => f x = .ok y) xs ys := by
  induction xs generalizing ys with
  | nil => cases ys <;> simp [pure, Except.pure]
  | cons x xs ih =>
    simp only [List.mapM_cons, bind_eq_ok_iff, pure_eq_ok_iff, List.forall₂_cons_left_iff, ih]
    constructor
    · rintro ⟨y, hy, ys, hys, rfl⟩
      exact ⟨y, ys, hy, hys, rfl⟩
    · rintro ⟨y, ys, hy, hys, rfl⟩
      exact ⟨y, hy, ys, hys, rfl⟩

theorem mapM_cons_eq_error_iff {x : α} {xs : List α} {e : ε} :
    (x :: xs).mapM f = .error e ↔ f x = .error e ∨ (∃ y, f x = .ok y) ∧ xs.mapM f = .error e := by
  rw [List.mapM_cons]
  cases f x with
  | error cause => simp [bind, Except.bind]
  | ok y => cases xs.mapM f <;> simp [bind, Except.bind, pure, Except.pure]

/-- The error is that of the first entry that has one. -/
theorem mapM_eq_error_iff {xs : List α} {e : ε} : xs.mapM f = .error e ↔
    ∃ before x after, xs = before ++ x :: after ∧ (∀ y ∈ before, ∃ z, f y = .ok z) ∧ f x = .error e := by
  induction xs with
  | nil => simp [pure, Except.pure]
  | cons x xs ih =>
    rw [mapM_cons_eq_error_iff, ih]
    constructor
    · rintro (hx | ⟨hx, before, y, after, rfl, hbefore, hy⟩)
      · exact ⟨[], x, xs, rfl, nofun, hx⟩
      · exact ⟨x :: before, y, after, rfl, List.forall_mem_cons.2 ⟨hx, hbefore⟩, hy⟩
    · rintro ⟨before, y, after, he, hbefore, hy⟩
      cases before with
      | nil =>
        obtain ⟨rfl, rfl⟩ := List.cons.inj he
        exact .inl hy
      | cons z before =>
        obtain ⟨rfl, rfl⟩ := List.cons.inj he
        obtain ⟨hx, hbefore⟩ := List.forall_mem_cons.1 hbefore
        exact .inr ⟨hx, before, y, after, rfl, hbefore, hy⟩

theorem forall₂_and_right {R : α → β → Prop} {p : β → Prop} {xs : List α} {ys : List β} :
    List.Forall₂ (fun x y => R x y ∧ p y) xs ys ↔ List.Forall₂ R xs ys ∧ ∀ y ∈ ys, p y := by
  constructor
  · intro h
    induction h with
    | nil => exact ⟨.nil, nofun⟩
    | cons hxy _ ih => exact ⟨.cons hxy.1 ih.1, List.forall_mem_cons.2 ⟨hxy.2, ih.2⟩⟩
  · rintro ⟨h, hp⟩
    induction h with
    | nil => exact .nil
    | cons hxy _ ih =>
      obtain ⟨hy, hp⟩ := List.forall_mem_cons.1 hp
      exact .cons ⟨hxy, hy⟩ (ih hp)

end Loops

theorem Session.capacity_pos_of_new {config : Config} {s : Session} (h : new config = .ok s) :
    0 < config.robCapacity.toNat := by
  rw [new, bind_eq_ok_iff] at h
  obtain ⟨m, hm, -⟩ := h
  obtain ⟨rob, hrob, -⟩ := Machine.initial_eq hm
  unfold ReorderBuffer.ofCapacity at hrob
  split at hrob
  · assumption
  · simp at hrob

namespace Assembly

open Text

/-! ### Lines -/

/-- The line of that number, counted from one, trimmed; it is neither empty nor a comment. -/
def Holds (source : List Char) (number : Nat) (text : List Char) : Prop :=
  ∃ k line, number = k + 1 ∧ (lines source)[k]? = some line ∧ text = trim line ∧
    text ≠ [] ∧ ¬['#'] <+: text ∧ ¬['/', '/'] <+: text

theorem isComment_iff {text : List Char} : isComment text = true ↔ ['#'] <+: text ∨ ['/', '/'] <+: text := by
  unfold isComment
  split
  · simp
  · simp
  · next hhash hslashes =>
    refine ⟨nofun, ?_⟩
    rintro (⟨rest, rfl⟩ | ⟨rest, rfl⟩)
    · exact absurd rfl (hhash rest)
    · exact absurd rfl (hslashes rest)

theorem mem_instructionLines {source text : List Char} {number : Nat} :
    (number, text) ∈ instructionLines source ↔ Holds source number text := by
  have hcomment : isComment text = false ↔ ¬['#'] <+: text ∧ ¬['/', '/'] <+: text := by
    rw [← not_or, ← isComment_iff, Bool.not_eq_true]
  simp only [instructionLines, List.mem_filter, List.mem_map, Prod.exists, Prod.mk.injEq, Bool.and_eq_true,
    Bool.not_eq_true', List.isEmpty_eq_false_iff, hcomment, List.mk_mem_zipIdx_iff_le_and_getElem?_sub]
  constructor
  · rintro ⟨⟨line, n, ⟨hle, hline⟩, rfl, rfl⟩, hne, hprefixes⟩
    exact ⟨n - 1, line, by omega, hline, rfl, hne, hprefixes⟩
  · rintro ⟨k, line, rfl, hline, rfl, hne, hprefixes⟩
    exact ⟨⟨line, k + 1, ⟨by omega, hline⟩, rfl, rfl⟩, hne, hprefixes⟩

theorem pairwise_instructionLines (source : List Char) :
    (instructionLines source).Pairwise fun a b => a.1 < b.1 := by
  have hnumbers : ((lines source).zipIdx 1).Pairwise fun a b => a.2 < b.2 := by
    rw [← List.pairwise_map, List.zipIdx_map_snd]
    exact List.pairwise_lt_range'
  exact List.Pairwise.filter _ (List.pairwise_map.2 hnumbers)

theorem trimmed_of_mem {source : List Char} {l : Nat × List Char} (h : l ∈ instructionLines source) :
    Trimmed l.2 := by
  obtain ⟨_, _, _, _, htrim, _⟩ := mem_instructionLines.1 h
  exact htrim ▸ trimmed_trim _

/-! ### Reading -/

section Reading

variable {config : Config} {source : List Char} {code : List Instruction} {l : Nat × List Char}

theorem readNumbered_eq_ok_iff (h : Trimmed l.2) {i : Instruction} :
    readNumbered l = .ok i ↔ Spells (standardForm l.2) i := by
  rw [← readLine_eq_ok_iff h, readNumbered]
  cases readLine l.2 <;> simp [Except.mapError]

theorem readNumbered_eq_error_iff {e : LoadError} : readNumbered l = .error e ↔
    ∃ cause, readLine l.2 = .error cause ∧ e = .line l.1 l.2 cause := by
  rw [readNumbered]
  cases readLine l.2 <;> simp [Except.mapError, eq_comm]

theorem exists_readNumbered_iff (h : Trimmed l.2) :
    (∃ i, readNumbered l = .ok i) ↔ ∃ i, Spells (standardForm l.2) i :=
  exists_congr fun _ => readNumbered_eq_ok_iff h

theorem read_eq_ok_iff : (instructionLines source).mapM readNumbered = .ok code ↔
    List.Forall₂ (fun l i => Spells (standardForm l.2) i) (instructionLines source) code := by
  have hboth : ∀ {R S : Nat × List Char → Instruction → Prop}, (∀ l i, Trimmed l.2 → R l i → S l i) →
      List.Forall₂ R (instructionLines source) code → List.Forall₂ S (instructionLines source) code :=
    fun hRS h => ((List.forall₂_and_left _ _).2 ⟨fun l hl => trimmed_of_mem hl, h⟩).imp
      fun l i hl => hRS l i hl.1 hl.2
  rw [mapM_eq_ok_iff]
  exact ⟨hboth fun _ _ hl => (readNumbered_eq_ok_iff hl).1, hboth fun _ _ hl => (readNumbered_eq_ok_iff hl).2⟩

/-- The first line that is no instruction, with its number. -/
theorem read_eq_error_iff {number : Nat} {text : List Char} :
    (∃ cause, (instructionLines source).mapM readNumbered = .error (.line number text cause)) ↔
      Holds source number text ∧ (∀ i, ¬Spells (standardForm text) i) ∧
        ∀ n t, n < number → Holds source n t → ∃ i, Spells (standardForm t) i := by
  have hsorted := pairwise_instructionLines source
  simp only [mapM_eq_error_iff, readNumbered_eq_error_iff]
  constructor
  · rintro ⟨cause, before, l, after, he, hbefore, cause', hline, hsame⟩
    obtain ⟨rfl, rfl, rfl⟩ := LoadError.line.inj hsame
    have hl : l ∈ instructionLines source := by rw [he]; simp
    refine ⟨mem_instructionLines.1 hl, fun i hi => ?_, fun n t hlt ht => ?_⟩
    · rw [(readLine_eq_ok_iff (trimmed_of_mem hl)).2 hi] at hline
      simp at hline
    · have hmem := mem_instructionLines.2 ht
      refine (exists_readNumbered_iff (l := (n, t)) (trimmed_of_mem hmem)).1 (hbefore (n, t) ?_)
      rw [he] at hmem hsorted
      refine (List.mem_append.1 hmem).resolve_right fun hlater => ?_
      rcases List.mem_cons.1 hlater with rfl | hlater
      · exact Nat.lt_irrefl _ hlt
      · have := (List.pairwise_cons.1 (List.pairwise_append.1 hsorted).2.1).1 (n, t) hlater
        omega
  · rintro ⟨hholds, hnot, hfirst⟩
    obtain ⟨before, after, he⟩ := List.append_of_mem (mem_instructionLines.2 hholds)
    obtain ⟨cause, hcause⟩ : ∃ cause, readLine text = .error cause := by
      cases hread : readLine text with
      | ok i =>
        have htrimmed := trimmed_of_mem (mem_instructionLines.2 hholds)
        exact absurd ((readLine_eq_ok_iff htrimmed).1 hread) (hnot i)
      | error cause => exact ⟨cause, rfl⟩
    refine ⟨cause, before, (number, text), after, he, fun l hl => ?_, cause, hcause, rfl⟩
    have hmem : l ∈ instructionLines source := by rw [he]; exact List.mem_append_left _ hl
    rw [he] at hsorted
    have hlt := (List.pairwise_append.1 hsorted).2.2 l hl (number, text) (List.mem_cons_self ..)
    exact (exists_readNumbered_iff (trimmed_of_mem hmem)).2 (hfirst l.1 l.2 hlt (mem_instructionLines.1 hmem))

end Reading

/-! ### Registers out of range -/

/-- The instructions that name a register beyond the highest one, each with its position and the first such
register. -/
def outOfRange (highest : UInt16) (code : List Instruction) : List (Nat × Instruction × Instruction.Misfit) :=
  code.zipIdx.filterMap fun (i, position) =>
    (i.registers.find? fun r => decide (highest < r.index)).map fun r => (position, i, .register r highest)

theorem Spells.missingOperand_eq {text : List Char} {i : Instruction} (h : Spells text i) :
    i.missingOperand = none := by
  cases h with
  | @register op d s t rd rs rt operation =>
    revert operation
    cases op <;> simp [Instruction.missingOperand]
  | @immediate op d s i rd rs imm operation =>
    revert operation
    cases op <;> simp [Instruction.missingOperand]
  | load | store | branch => rfl

theorem outOfRange_eq_nil_iff {highest : UInt16} {code : List Instruction} :
    outOfRange highest code = [] ↔ ∀ i ∈ code, ∀ r ∈ i.registers, r.index ≤ highest := by
  simp only [outOfRange, List.filterMap_eq_nil_iff, Option.map_eq_none_iff, List.find?_eq_none,
    decide_eq_true_eq, UInt16.not_lt, Prod.forall]
  constructor
  · intro h i hi
    obtain ⟨p, hp⟩ := List.getElem?_of_mem hi
    exact h i p (List.mk_mem_zipIdx_iff_getElem?.2 hp)
  · exact fun h i p hp => h i (List.fst_mem_of_mem_zipIdx hp)

section Loaded

variable {config : Config} {source : List Char} {code : List Instruction}

theorem misfits_eq (h : List.Forall₂ (fun l i => Spells (standardForm l.2) i) (instructionLines source) code) :
    misfits config code = outOfRange config.highestArch code := by
  have hmissing : ∀ i ∈ code, i.missingOperand = none :=
    (forall₂_and_right.1 (h.imp fun l i hl => ⟨hl, hl.missingOperand_eq⟩)).2
  refine List.filterMap_congr ?_
  rintro ⟨i, position⟩ hentry
  simp only [Instruction.misfit, hmissing i (List.fst_mem_of_mem_zipIdx hentry)]
  exact Option.map_map ..

theorem load_eq_error_iff {e : LoadError} : load config source = .error e ↔
    (instructionLines source).mapM readNumbered = .error e ∨
      ∃ code, (instructionLines source).mapM readNumbered = .ok code ∧ misfits config code ≠ [] ∧
        e = .analysis (misfits config code) := by
  rw [load]
  cases (instructionLines source).mapM readNumbered with
  | error cause => simp [bind, Except.bind]
  | ok code =>
    cases hfound : misfits config code with
    | nil => simp [bind, Except.bind, pure, Except.pure, hfound]
    | cons found more =>
      simp only [bind, Except.bind, throw, throwThe, MonadExceptOf.throw, hfound, reduceCtorEq, Except.error.injEq,
        Except.ok.injEq, exists_eq_left', false_or, ne_eq, not_false_eq_true, true_and]
      exact eq_comm

/-- Reading only fails on a line. -/
theorem exists_line_of_read {e : LoadError} (h : (instructionLines source).mapM readNumbered = .error e) :
    ∃ number text cause, e = .line number text cause := by
  obtain ⟨_, l, _, _, _, hl⟩ := mapM_eq_error_iff.1 h
  obtain ⟨cause, _, he⟩ := readNumbered_eq_error_iff.1 hl
  exact ⟨l.1, l.2, cause, he⟩

end Loaded

/-- A source is accepted just when the grammar has the standard form of every line with an instruction and all
registers are in range; the instructions are those of the lines in order, and any machine of the configuration
takes them. Else the first line that the grammar does not have is reported with its number and its text, and if
there is none, all that is out of range. Nothing else is reported. -/
theorem load_follows_grammar (config : Config) (source : List Char) :
    (∀ code, load config source = .ok code ↔
      List.Forall₂ (fun l i => Spells (standardForm l.2) i ∧ ∀ r ∈ i.registers, r.index ≤ config.highestArch)
        (instructionLines source) code) ∧
    (∀ code, load config source = .ok code → ∀ fresh before : Session, Session.new config = .ok fresh →
      before.config = config → ∃ s, before.load code = .ok (s, .ok ())) ∧
    (∀ number text, (∃ cause, load config source = .error (.line number text cause)) ↔
      Holds source number text ∧ (∀ i, ¬Spells (standardForm text) i) ∧
        ∀ n t, n < number → Holds source n t → ∃ i, Spells (standardForm t) i) ∧
    (∀ found, load config source = .error (.analysis found) ↔ found ≠ [] ∧ ∃ code,
      List.Forall₂ (fun l i => Spells (standardForm l.2) i) (instructionLines source) code ∧
        found = outOfRange config.highestArch code) ∧
    (∀ path cause, load config source ≠ .error (.unreadable path cause)) ∧
    (∀ number text, (number, text) ∈ instructionLines source ↔ Holds source number text) ∧
    (instructionLines source).Pairwise fun a b => a.1 < b.1 := by
  refine ⟨fun code => ?_, fun code hload _ before hnew hconfig => ?_, fun number text => ?_, fun found => ?_,
    fun path cause hload => ?_, fun _ _ => mem_instructionLines, pairwise_instructionLines source⟩
  · rw [load_eq_ok_iff, read_eq_ok_iff, forall₂_and_right, ← outOfRange_eq_nil_iff]
    exact and_congr_right fun h => by rw [misfits_eq h]
  · obtain ⟨m, hm⟩ := Machine.exists_initial (Session.capacity_pos_of_new hnew) code
    simp only [Session.load, hconfig, Session.misfits_of_assembled hload, Session.reset, hm, bind, Except.bind,
      pure, Except.pure]
    exact ⟨_, rfl⟩
  · rw [← read_eq_error_iff]
    refine exists_congr fun cause => ?_
    rw [load_eq_error_iff, or_iff_left]
    rintro ⟨code, -, -, he⟩
    simp at he
  · rw [load_eq_error_iff]
    constructor
    · rintro (hread | ⟨code, hread, hne, he⟩)
      · obtain ⟨number, text, cause, he⟩ := exists_line_of_read hread
        simp at he
      · obtain rfl := LoadError.analysis.inj he
        have hspelt := read_eq_ok_iff.1 hread
        exact ⟨hne, code, hspelt, misfits_eq hspelt⟩
    · rintro ⟨hne, code, hspelt, rfl⟩
      rw [← misfits_eq hspelt] at hne ⊢
      exact .inr ⟨code, read_eq_ok_iff.2 hspelt, hne, rfl⟩
  · rcases load_eq_error_iff.1 hload with hread | ⟨code, -, -, he⟩
    · obtain ⟨number, text, cause, he⟩ := exists_line_of_read hread
      simp at he
    · simp at he

/-- A source that is taken, and one whose second line has a digit that is none of ASCII. -/
theorem load_follows_grammar_digits :
    (∃ code fresh s, load .standard "# sum\nadd  r1, r2 ,r03".toList = .ok code ∧
      Session.new .standard = .ok fresh ∧ fresh.load code = .ok (s, .ok ())) ∧
    ∃ cause, load .standard "add r1,r2,r3\naddi r1,r2,\u0663".toList =
        .error (.line 2 "addi r1,r2,\u0663".toList cause) ∧
      ∀ i, ¬Spells (standardForm "addi r1,r2,\u0663".toList) i := by
  obtain ⟨-, htaken, -⟩ := load_follows_grammar .standard "# sum\nadd  r1, r2 ,r03".toList
  obtain ⟨-, -, hrefused, -⟩ := load_follows_grammar .standard "add r1,r2,r3\naddi r1,r2,\u0663".toList
  have hadmitted : Config.standard.Admitted := ⟨by decide, by decide, by decide⟩
  obtain ⟨fresh, hnew, hfresh⟩ := Session.exists_new hadmitted
  have hload : ∃ code ∈ (load .standard "# sum\nadd  r1, r2 ,r03".toList).toOption, code.length = 1 := by
    decide +kernel
  obtain ⟨code, hcode, -⟩ := hload
  rw [Option.mem_def, toOption_eq_some_iff] at hcode
  obtain ⟨s, hs⟩ := htaken code hcode fresh fresh hnew hfresh.config_eq
  have hline : ∃ cause, load .standard "add r1,r2,r3\naddi r1,r2,\u0663".toList =
      .error (.line 2 "addi r1,r2,\u0663".toList cause) :=
    ⟨.illegalImmediate "\u0663".toList .invalidDigit, by decide +kernel⟩
  obtain ⟨-, hnone, -⟩ := (hrefused 2 "addi r1,r2,\u0663".toList).1 hline
  obtain ⟨cause, hcause⟩ := hline
  exact ⟨⟨code, fresh, s, hcode, hnew, hs⟩, cause, hcause, hnone⟩

end Assembly

end OutOfOrder
