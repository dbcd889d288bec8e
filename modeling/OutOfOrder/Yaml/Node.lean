import OutOfOrder.Yaml.Scalar

/-!
The content of a document: a tree of scalars and collections, in which an alias stands for the node that was
given the anchor of its name last.
-/

set_option autoImplicit false

namespace OutOfOrder.Yaml

/-- An alias holds the number of its anchor. -/
inductive Node
  | scalar (content : Scalar) (type : Option TypeTag)
  | sequence (items : List Node)
  | mapping (entries : List (Node × Node))
  | alias (anchor : Nat)

def Node.absent : Node := .scalar .absent none

/-- The root and the nodes with an anchor, by the number of that. -/
structure Document where
  root : Node
  anchored : List (Nat × Node)

/-- The node that an alias stands for; any other stands for itself. -/
def Document.resolve (d : Document) : Node → Node
  | .alias anchor => (d.anchored.lookup anchor).getD .absent
  | node => node

end OutOfOrder.Yaml
