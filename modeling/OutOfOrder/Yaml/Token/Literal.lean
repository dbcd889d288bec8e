import OutOfOrder.Yaml.Cursor

/-!
Scalars that are whole lines below a bar or an angle. Their indentation is dropped; an angle folds single
line breaks between lines that start with no space.
-/

set_option autoImplicit false

namespace OutOfOrder.Yaml

/-- What becomes of the line breaks at the end. -/
inductive Chomping
  | strip
  | clip
  | keep
  deriving DecidableEq, Repr

structure LiteralHeader where
  chomping : Chomping
  increment : Nat
  deriving DecidableEq, Repr

def readChomping : List Char → Chomping × List Char
  | '+' :: cs => (.keep, cs)
  | '-' :: cs => (.strip, cs)
  | cs => (.clip, cs)

/-- A digit other than zero; an absent one leaves the indentation to the first line. -/
def readIncrement : List Char → Option (Nat × List Char)
  | [] => some (0, [])
  | c :: cs =>
    if c == '0' then none
    else if c.isDigit then some (c.toNat - '0'.toNat, cs)
    else some (0, c :: cs)

/-- The two indicators in either order, then nothing but a comment in the line. -/
def readLiteralHeader (cs : List Char) : Option (LiteralHeader × List Char) := do
  let (chomping, rest) := readChomping cs
  let (increment, rest) ← readIncrement rest
  let (chomping, rest) := if chomping = .clip && increment != 0 then readChomping rest else (chomping, rest)
  let rest := dropSpaces rest
  let rest := if rest.head? == some '#' then dropLine rest else rest
  match rest with
  | [] => some (⟨chomping, increment⟩, [])
  | c :: cs => if isBreak c then some (⟨chomping, increment⟩, c :: cs) else none

/-- Where the content of a line begins: the breaks before it, the deepest column met, its own and the
rest. An indentation of zero is not yet known. -/
def skipIndentation (indent deepest column breaks : Nat) :
    List Char → Option (Nat × Nat × Nat × List Char)
  | [] => some (breaks, max deepest column, column, [])
  | c :: cs =>
    let shallow := indent == 0 || column < indent
    if shallow && c == ' ' then skipIndentation indent deepest (column + 1) breaks cs
    else if shallow && c == '\t' then none
    else if isBreak c then
      skipIndentation indent (max deepest column) (columnAfter column c) (breaks + 1) cs
    else some (breaks, max deepest column, column, c :: cs)

/-- The lines from one on that stands at the indentation. `breaks` are the empty lines before it,
`afterLine` and `afterSpace` tell of a line before that and of its first character. -/
def readLiteralLines (folds : Bool) (chomping : Chomping) (indent fuel : Nat) (afterLine afterSpace : Bool)
    (breaks column : Nat) (cs : List Char) : Option (List Char × List Char) :=
  let ending := match chomping with
    | .strip => []
    | .clip => if afterLine then ['\n'] else []
    | .keep => List.replicate (breaks + if afterLine then 1 else 0) '\n'
  match fuel, cs with
  | 0, _ => none
  | _, [] => some (ending, [])
  | fuel + 1, c :: cs =>
    if column != indent then some (ending, c :: cs)
    else
      let lead :=
        if !afterLine then []
        else if folds && !afterSpace && !isSpace c then (if breaks = 0 then [' '] else [])
        else ['\n']
      let line := (c :: cs).takeWhile fun c => !isBreak c
      let text := lead ++ List.replicate breaks '\n' ++ line
      match dropLine (c :: cs) with
      | [] => some (text, [])
      | b :: rest => do
        let (breaks, _, next, rest) ←
          skipIndentation indent 0 (columnAfter (column + line.length) b) 0 rest
        let (more, rest) ← readLiteralLines folds chomping indent fuel true (isSpace c) breaks next rest
        return (text ++ more, rest)

/-- What follows the bar or the angle at the given column; `least` is the column that the content has to
reach. -/
def readLiteral (folds : Bool) (least column : Nat) (cs : List Char) :
    Option (List Char × List Char) := do
  let (header, rest) ← readLiteralHeader cs
  let headerEnd := column + (cs.length - rest.length)
  let (rest, below) := match rest with
    | [] => ([], headerEnd)
    | b :: rest => (rest, columnAfter headerEnd b)
  let given := if header.increment = 0 then 0 else least - 1 + header.increment
  let (breaks, deepest, start, rest) ← skipIndentation given 0 below 0 rest
  let indent := if given = 0 then max 1 (max deepest least) else given
  readLiteralLines folds header.chomping indent (rest.length + 1) false false breaks start rest

end OutOfOrder.Yaml
