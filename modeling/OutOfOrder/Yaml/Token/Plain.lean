import OutOfOrder.Yaml.Token.Gap

/-!
Scalars without quotes. They end before a comment, before a colon that makes them a key, in a flow
collection before its marks, and outside of one where a line is not indented enough.
-/

set_option autoImplicit false

namespace OutOfOrder.Yaml

/-- Whether a scalar ends before the next character, which is no white space. -/
def endsPlain (inFlow : Bool) (least column : Nat) (gap : Gap) : List Char → Bool
  | [] => true
  | c :: cs =>
    (gap.crossesLine && !inFlow && column < least) ||
      (column == 0 && gap.crossesLine && startsDocumentMark (c :: cs)) ||
      (c == '#' && gap != .none) ||
      (c == ':' && (startsGap cs || (inFlow && startsFlowMark cs))) ||
      (inFlow && isFlowMark c)

/-- The text of a scalar, the gap behind it and the rest. A line may be indented by a tab only from the
column `least` on. -/
def readPlain (inFlow : Bool) (least column : Nat) (gap : Gap) :
    List Char → Option (List Char × Gap × List Char)
  | [] => some ([], gap, [])
  | c :: cs =>
    if isBreak c then readPlain inFlow least (columnAfter column c) gap.addBreak cs
    else if isSpace c then
      if c == '\t' && gap.crossesLine && column < least then none
      else readPlain inFlow least (column + 1) (gap.addSpace c) cs
    else if endsPlain inFlow least column gap (c :: cs) then some ([], gap, c :: cs)
    else do
      let (text, last, rest) ← readPlain inFlow least (column + 1) .none cs
      return (gap.text ++ c :: text, last, rest)

end OutOfOrder.Yaml
