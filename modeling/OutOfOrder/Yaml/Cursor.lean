/-!
Places in a text, and what the characters there mean to YAML. A text is read up to its first NUL, and a
carriage return before a line feed is no character of its own; alone it breaks a line as well, but the
columns go on.
-/

set_option autoImplicit false

namespace OutOfOrder.Yaml

def isSpace (c : Char) : Bool := c == ' ' || c == '\t'

def isBreak (c : Char) : Bool := c == '\n' || c == '\r'

def isFlowMark (c : Char) : Bool :=
  c == ',' || c == '[' || c == ']' || c == '{' || c == '}'

def isWordChar (c : Char) : Bool := c.isAlphanum || c == '_' || c == '-'

/-- The end of a text separates like a space. -/
def startsGap : List Char → Bool
  | [] => true
  | c :: _ => isSpace c || isBreak c

def startsFlowMark : List Char → Bool
  | [] => false
  | c :: _ => isFlowMark c

/-- Three dashes or points and a gap; they separate documents where a line starts with them. -/
def startsDocumentMark : List Char → Bool
  | '-' :: '-' :: '-' :: cs => startsGap cs
  | '.' :: '.' :: '.' :: cs => startsGap cs
  | _ => false

def dropSpaces (cs : List Char) : List Char := cs.dropWhile isSpace

def dropLine (cs : List Char) : List Char := cs.dropWhile fun c => !isBreak c

/-- Makes a carriage return and a line feed one line feed. -/
def unifyBreaks : List Char → List Char
  | [] => []
  | '\r' :: '\n' :: cs => '\n' :: unifyBreaks cs
  | c :: cs => c :: unifyBreaks cs

def columnAfter (column : Nat) (c : Char) : Nat := if c = '\n' then 0 else column + 1

/-- What is left of a text, and the numbers, from zero, of its first character, of the line and of the
column where that stands. -/
structure Cursor where
  rest : List Char
  index : Nat
  line : Nat
  column : Nat
  deriving Repr

namespace Cursor

def start (text : List Char) : Cursor :=
  ⟨unifyBreaks (text.takeWhile (· != Char.ofNat 0)), 0, 0, 0⟩

def next (p : Cursor) : Cursor :=
  match p.rest with
  | [] => p
  | c :: cs =>
    { rest := cs, index := p.index + 1, line := if c = '\n' then p.line + 1 else p.line
      column := columnAfter p.column c }

def skip : Nat → Cursor → Cursor
  | 0, p => p
  | n + 1, p => skip n p.next

/-- Moves on until no more than `rest` is left. -/
def upTo (p : Cursor) (rest : List Char) : Cursor := p.skip (p.rest.length - rest.length)

end Cursor

end OutOfOrder.Yaml
