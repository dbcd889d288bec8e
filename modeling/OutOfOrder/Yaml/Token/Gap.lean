import OutOfOrder.Yaml.Cursor

/-!
The white space between two pieces of a scalar. Spaces count as they are; a single line break folds into
one space, and of several all but the first are kept.
-/

set_option autoImplicit false

namespace OutOfOrder.Yaml

/-- `folded n` is a line break with `n` more after it, `joined n` an escaped one, which leaves no trace. -/
inductive Gap
  | spaces (cs : List Char)
  | folded (n : Nat)
  | joined (n : Nat)
  deriving DecidableEq, Repr

namespace Gap

def none : Gap := spaces []

def addBreak : Gap → Gap
  | spaces _ => folded 0
  | folded n => folded (n + 1)
  | joined n => joined (n + 1)

/-- The spaces at the start of a line are dropped. -/
def addSpace (c : Char) : Gap → Gap
  | spaces cs => spaces (cs ++ [c])
  | gap => gap

def crossesLine : Gap → Bool
  | spaces _ => false
  | _ => true

def text : Gap → List Char
  | spaces cs => cs
  | folded 0 => [' ']
  | folded n => List.replicate n '\n'
  | joined n => List.replicate n '\n'

end Gap

end OutOfOrder.Yaml
