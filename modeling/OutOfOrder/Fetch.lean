import OutOfOrder.Instance

/-!
The versions of every instruction and the cursor that issue reads from. A version is only ever added
behind the others; the last one is current.
-/

set_option autoImplicit false

namespace OutOfOrder

structure History where
  past : List Instance
  current : Instance
  deriving DecidableEq

namespace History

def fresh (instr : Instruction) (position : Nat) : History := ⟨[], .fresh instr position 0⟩

/-- Oldest first. -/
def versions (h : History) : List Instance := h.past ++ [h.current]

def version? (h : History) (version : Nat) : Option Instance := h.versions[version]?

def modify (h : History) (version : Nat) (f : Instance → Instance) : History :=
  if version = h.past.length then { h with current := f h.current }
  else { h with past := h.past.modify version f }

/-- Freezes the current version as squashed and starts another. -/
def renew (h : History) : History :=
  { past := h.past ++ [{ h.current with stage := .squashed }]
    current := .fresh h.current.instr h.current.position (h.current.version + 1) }

@[simp] theorem versions_renew (h : History) :
    h.renew.versions = h.past ++ [{ h.current with stage := .squashed },
      .fresh h.current.instr h.current.position (h.current.version + 1)] := by
  simp [versions, renew]

theorem version?_modify (h : History) (v w : Nat) (f : Instance → Instance) :
    (h.modify v f).version? w = if v = w then (h.version? w).map f else h.version? w := by
  by_cases hv : v = h.past.length
  · subst hv
    by_cases hw : w < h.past.length
    · simp [version?, versions, modify, List.getElem?_append_left hw, Nat.ne_of_gt hw]
    · have last : w - h.past.length = 0 ↔ h.past.length = w := by omega
      simp only [version?, versions, modify, if_true, List.getElem?_append, hw, if_false,
        List.getElem?_singleton, last]
      split <;> rfl
  · simp only [version?, versions, modify, hv, if_false, List.getElem?_append, List.length_modify,
      List.getElem?_modify]
    by_cases hw : w < h.past.length
    · by_cases hvw : v = w <;> simp [hw, hvw]
    · have last : v = w → w - h.past.length ≠ 0 := by omega
      by_cases hvw : v = w <;> simp [hw, hvw, last]

/-- Left the fetch queue and has not been replaced. -/
def inProgress (h : History) : Bool := h.current.stage != .unissued

end History

structure Fetch where
  histories : Array History
  pc : Nat
  deriving DecidableEq

namespace Fetch

def ofCode (code : List Instruction) : Fetch :=
  { histories := (code.zipIdx.map fun (instr, position) => History.fresh instr position).toArray
    pc := 0 }

def current? (f : Fetch) (position : Nat) : Option Instance :=
  f.histories[position]?.map History.current

/-- The instance at the cursor, if the program has not run out. -/
def next? (f : Fetch) : Option Instance := f.current? f.pc

def advance (f : Fetch) : Fetch := { f with pc := f.pc + 1 }

/-- An exact version, squashed ones included. -/
def get? (f : Fetch) (id : InstanceId) : Option Instance :=
  f.histories[id.position]?.bind (·.version? id.version)

def modify (f : Fetch) (id : InstanceId) (g : Instance → Instance) : Fetch :=
  { f with histories := f.histories.modify id.position (·.modify id.version g) }

/-- The current versions after a position that have been issued. -/
def issuedAfter (f : Fetch) (position : Nat) : List InstanceId :=
  ((f.histories.toList.drop (position + 1)).filter History.inProgress).map (·.current.id)

/-- Replaces the issued versions after a position and moves the cursor back to the first of them, never
to the target of a branch. -/
def renewAfter (f : Fetch) (position : Nat) : Fetch :=
  { histories := f.histories.mapIdx fun i h => if position < i && h.inProgress then h.renew else h
    pc := match f.issuedAfter position with
      | [] => f.pc
      | first :: _ => min f.pc first.position }

/-- Nothing is waiting and nothing is under way. -/
def isDone (f : Fetch) : Bool := f.histories.all (·.current.stage.isFinal)

end Fetch

end OutOfOrder
