import OutOfOrder.Yaml.Scalar

/-!
The tokens of a YAML stream. Indentation shows as the tokens that open and close block collections; a key
is announced even where only the colon after it tells that it is one.
-/

set_option autoImplicit false

namespace OutOfOrder.Yaml

inductive Token
  | directive
  | documentStart
  | documentEnd
  | blockSequenceStart
  | blockMappingStart
  | blockEnd
  | flowSequenceStart
  | flowSequenceEnd
  | flowMappingStart
  | flowMappingEnd
  | blockEntry
  | flowEntry
  | key
  | value
  | anchor (name : List Char)
  | alias (name : List Char)
  | tag (type : TypeTag)
  | scalar (content : Scalar)
  deriving DecidableEq, Repr

end OutOfOrder.Yaml
