import OutOfOrder.Instruction
import OutOfOrder.Memory
import OutOfOrder.Proofs.Success
import OutOfOrder.RegisterFile

/-!
A program in its own order, one instruction after the other on a plain register file.
-/

set_option autoImplicit false

namespace OutOfOrder

namespace RegisterFile

/-- A register that does not exist reads as zero. -/
def read (f : RegisterFile) (r : Register) : Word := f.values[r.index.toNat]?.getD 0.0

def write (f : RegisterFile) (dest : Option Register) (value : Word) : RegisterFile :=
  match dest with
  | none => f
  | some r => ⟨f.values.setIfInBounds r.index.toNat value⟩

theorem get_eq_ok_iff {f : RegisterFile} {r : Register} {value : Word} :
    f.get r = .ok value ↔ f.values[r.index.toNat]? = some value := readAt_eq_ok_iff

theorem read_of_get {f : RegisterFile} {r : Register} {value : Word} (h : f.get r = .ok value) :
    f.read r = value := by
  rw [read, get_eq_ok_iff.1 h, Option.getD_some]

theorem write_of_set {f f' : RegisterFile} {r : Register} {value : Word}
    (h : f.set r value = .ok f') : f' = f.write (some r) value := by
  rw [set, map_eq_ok_iff] at h
  obtain ⟨values, hw, rfl⟩ := h
  unfold writeAt at hw
  split at hw
  · next hlt =>
    obtain rfl := Except.ok.inj hw
    simp [write, Array.setIfInBounds, hlt]
  · simp at hw

theorem read_of_set {f f' : RegisterFile} {r q : Register} {value : Word}
    (h : f.set r value = .ok f') : f'.read q = if r = q then value else f.read q := by
  rw [set, map_eq_ok_iff] at h
  obtain ⟨values, hw, rfl⟩ := h
  unfold writeAt at hw
  split at hw
  · next hlt =>
    obtain rfl := Except.ok.inj hw
    have hq : r.index.toNat = q.index.toNat ↔ r = q := by
      rw [UInt16.toNat_inj]
      cases r
      cases q
      simp
    simp only [read, Array.getElem?_set, hq]
    split <;> simp
  · simp at hw

end RegisterFile

/-- What an instruction reads and what comes of it. -/
structure Evaluation where
  left : Word
  right : Option Word
  result : Word
  deriving DecidableEq

namespace Instruction

def left (i : Instruction) (f : RegisterFile) : Word := f.read i.sources.1

def right (i : Instruction) (f : RegisterFile) : Option Word := i.sources.2.map f.read

def compute (i : Instruction) (f : RegisterFile) : Except DivisionByZero Word :=
  i.opcode.apply (i.left f) ((i.right f).getD 0.0) i.imm

/-- A load takes the given word, a store its data; else it is what was computed. -/
def resultOf (i : Instruction) (f : RegisterFile) (computed loaded : Word) : Word :=
  match i.opcode with
  | .load => loaded
  | .store => (i.right f).getD 0.0
  | _ => computed

def evaluate (i : Instruction) (f : RegisterFile) (loaded : Word) : Except DivisionByZero Evaluation :=
  (i.compute f).map fun computed => ⟨i.left f, i.right f, i.resultOf f computed loaded⟩

end Instruction

/-- Runs instructions, each with the word that a load takes. -/
def replay (f : RegisterFile) : List (Instruction × Word) →
    Except DivisionByZero (List Evaluation × RegisterFile)
  | [] => .ok ([], f)
  | (i, loaded) :: rest => do
    let e ← i.evaluate f loaded
    let (es, last) ← replay (f.write i.dest e.result) rest
    return (e :: es, last)

theorem replay_append {f last : RegisterFile} {earlier : List (Instruction × Word)}
    {es : List Evaluation} (h : replay f earlier = .ok (es, last)) {i : Instruction}
    {loaded : Word} {e : Evaluation} (he : i.evaluate last loaded = .ok e) :
    replay f (earlier ++ [(i, loaded)]) = .ok (es ++ [e], last.write i.dest e.result) := by
  induction earlier generalizing f es with
  | nil =>
    simp only [replay, Except.ok.injEq, Prod.mk.injEq] at h
    obtain ⟨rfl, rfl⟩ := h
    simp [replay, he, bind, Except.bind, pure, Except.pure]
  | cons first rest ih =>
    obtain ⟨j, word⟩ := first
    simp only [replay, bind_eq_ok_iff, pure_eq_ok_iff, Prod.mk.injEq] at h
    obtain ⟨o, hj, ⟨os, final⟩, hr, rfl, rfl⟩ := h
    simp [replay, hj, ih hr, bind, Except.bind, pure, Except.pure]

/-- The words are for loads only. -/
theorem replay_without_load {code : List Instruction} (hno : ∀ i ∈ code, i.opcode ≠ .load)
    {words : List Word} (hlen : words.length = code.length) (f : RegisterFile) :
    replay f (code.zip words) = replay f (code.map fun i => (i, 0.0)) := by
  induction code generalizing words f with
  | nil => rfl
  | cons i rest ih =>
    cases words with
    | nil => simp at hlen
    | cons word words =>
      have hi := hno i (List.mem_cons_self ..)
      have he : i.evaluate f word = i.evaluate f 0.0 := by
        unfold Instruction.evaluate Instruction.resultOf
        cases ho : i.opcode <;> simp_all
      have hrest : ∀ f, replay f (rest.zip words) = replay f (rest.map fun i => (i, 0.0)) :=
        ih (fun j hj => hno j (List.mem_cons_of_mem i hj)) (by simpa using hlen)
      simp only [List.zip_cons_cons, List.map_cons, replay, he, hrest]

/-- With memory at hand; gives the results as well. -/
def runInOrder (f : RegisterFile) (memory : Memory) :
    List Instruction → Except DivisionByZero (List Word × RegisterFile × Memory)
  | [] => .ok ([], f, memory)
  | i :: rest => do
    let computed ← i.compute f
    let (result, memory) := memory.access i.opcode computed ((i.right f).getD 0.0)
    let (results, last) ← runInOrder (f.write i.dest result) memory rest
    return (result :: results, last)

end OutOfOrder
