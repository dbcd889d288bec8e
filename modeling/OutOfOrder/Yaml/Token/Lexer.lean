import OutOfOrder.Yaml.Token
import OutOfOrder.Yaml.Token.Literal
import OutOfOrder.Yaml.Token.Plain
import OutOfOrder.Yaml.Token.Property

/-!
A text as tokens. That something was a key shows only at the colon behind it, so its place among the tokens
is remembered until then: for at most one line and 1024 characters, once in every open flow collection.
-/

set_option autoImplicit false

namespace OutOfOrder.Yaml

/-- Something that may turn out to be a key: the number of its first token and where it stands. A required
one is an error unless it does. -/
structure Candidate where
  token : Nat
  index : Nat
  line : Nat
  column : Nat
  required : Bool
  deriving Repr

/-- `indents` are the columns of the open block collections, the innermost first, `candidate` is what may
become a key here and `outer` the same for the collections around. `adjacent` is the index behind the last
closing quote, where a colon in a flow collection needs no gap. -/
structure Lexer where
  tokens : Array Token
  cursor : Cursor
  indents : List Nat
  candidate : Option Candidate
  outer : List (Option Candidate)
  keyAllowed : Bool
  adjacent : Nat

namespace Lexer

def start (text : List Char) : Lexer :=
  { tokens := #[], cursor := .start text, indents := [], candidate := none, outer := []
    keyAllowed := true, adjacent := 0 }

def inFlow (x : Lexer) : Bool := !x.outer.isEmpty

def push (x : Lexer) (t : Token) : Lexer := { x with tokens := x.tokens.push t }

def allowKey (x : Lexer) (b : Bool) : Lexer := { x with keyAllowed := b }

def skip (x : Lexer) (n : Nat) : Lexer := { x with cursor := x.cursor.skip n }

def upTo (x : Lexer) (rest : List Char) : Lexer := { x with cursor := x.cursor.upTo rest }

/-- The column that the lines of a scalar have to reach. -/
def least (x : Lexer) : Nat :=
  match x.indents with
  | [] => 0
  | i :: _ => i + 1

/-- What is left behind white space and comments, and whether a key may stand there. In block context every
new line may begin with a key, and where one may stand a tab is no white space. -/
def passGap (inFlow keyAllowed inComment : Bool) : List Char → Bool × List Char
  | [] => (keyAllowed, [])
  | c :: cs =>
    if isBreak c then passGap inFlow (keyAllowed || !inFlow) false cs
    else if inComment || c == ' ' || (c == '\t' && (inFlow || !keyAllowed)) then
      passGap inFlow keyAllowed inComment cs
    else if c == '#' then passGap inFlow keyAllowed true cs
    else (keyAllowed, c :: cs)

def toNextToken (x : Lexer) : Lexer :=
  let (keyAllowed, rest) := passGap x.inFlow x.keyAllowed false x.cursor.rest
  (x.upTo rest).allowKey keyAllowed

def isStale (p : Cursor) (k : Candidate) : Bool := k.line < p.line || k.index + 1024 < p.index

/-- Gives up the candidates that are too far back. -/
def dropStale (x : Lexer) : Option Lexer :=
  let drop (k : Option Candidate) : Option Candidate := k.filter fun k => !isStale x.cursor k
  let lost := (x.candidate :: x.outer).any fun k => k.any fun k => k.required && isStale x.cursor k
  if lost then none else some { x with candidate := drop x.candidate, outer := x.outer.map drop }

/-- Gives up what may have become a key. -/
def dropCandidate (x : Lexer) : Option Lexer :=
  if x.candidate.any (·.required) then none else some { x with candidate := none }

/-- What follows may become a key. In a flow collection it has to where it stands below the block around. -/
def saveCandidate (x : Lexer) : Option Lexer :=
  if x.keyAllowed then do
    let x ← x.dropCandidate
    let p := x.cursor
    return { x with candidate := some {
      token := x.tokens.size, index := p.index, line := p.line, column := p.column
      required := x.inFlow && x.indents.head? == some p.column } }
  else some x

/-- Closes the open block collections as long as their column says so. -/
def closeBlocks (x : Lexer) (ends : Nat → Bool) : Lexer :=
  if x.inFlow then x
  else
    { x with tokens := x.tokens ++ (x.indents.takeWhile ends).map fun _ => Token.blockEnd
             indents := x.indents.dropWhile ends }

/-- Opens a block collection before the token of the given number, unless one is open at its column. -/
def openBlock (x : Lexer) (column number : Nat) (t : Token) : Lexer :=
  if x.inFlow || x.indents.head?.any (column ≤ ·) then x
  else
    { x with tokens := x.tokens.insertIdxIfInBounds number t, indents := column :: x.indents }

def openBlockHere (x : Lexer) (t : Token) : Lexer := x.openBlock x.cursor.column x.tokens.size t

/-- Flow collections nest up to 255 deep. -/
def openFlow (x : Lexer) (t : Token) : Option Lexer := do
  let x ← x.saveCandidate
  if 255 ≤ x.outer.length then none
  return ({ x with candidate := none, outer := x.candidate :: x.outer }.allowKey true |>.push t).skip 1

def closeFlow (x : Lexer) (t : Token) : Option Lexer := do
  let x ← x.dropCandidate
  let x := match x.outer with
    | [] => x
    | k :: outer => { x with candidate := k, outer }
  return (x.allowKey false |>.push t).skip 1

def readFlowEntry (x : Lexer) : Option Lexer := do
  return ((← x.dropCandidate).allowKey true |>.push .flowEntry).skip 1

def readBlockEntry (x : Lexer) : Option Lexer := do
  if x.inFlow || !x.keyAllowed then none
  let x ← (x.openBlockHere .blockSequenceStart).dropCandidate
  return (x.allowKey true |>.push .blockEntry).skip 1

/-- A question mark before a key. -/
def readKey (x : Lexer) : Option Lexer := do
  if !x.inFlow && !x.keyAllowed then none
  let x ← (x.openBlockHere .blockMappingStart).dropCandidate
  return (x.allowKey (!x.inFlow) |>.push .key).skip 1

/-- A colon. It makes a key of what may become one, and else follows an empty key or one with a mark. -/
def readValue (x : Lexer) : Option Lexer :=
  match x.candidate with
  | some k =>
    let x := { x with tokens := x.tokens.insertIdxIfInBounds k.token .key, candidate := none }
    some ((x.openBlock k.column k.token .blockMappingStart |>.allowKey false |>.push .value).skip 1)
  | none =>
    if x.inFlow then some ((x.allowKey false |>.push .value).skip 1)
    else if x.keyAllowed then
      some ((x.openBlockHere .blockMappingStart |>.allowKey true |>.push .value).skip 1)
    else none

/-- Ends all block collections. -/
def endContent (x : Lexer) : Option Lexer := do
  return (← (x.closeBlocks fun _ => true).dropCandidate).allowKey false

def readDocumentMark (x : Lexer) (t : Token) : Option Lexer := do
  return ((← x.endContent).push t).skip 3

def readDirective (x : Lexer) : Option Lexer := do
  let x ← x.endContent
  return (x.push .directive).upTo (← passDirective (x.cursor.rest.drop 1))

def readAnchor (x : Lexer) (t : List Char → Token) : Option Lexer := do
  let x ← x.saveCandidate
  let (name, rest) ← readName (x.cursor.rest.drop 1)
  return (x.allowKey false |>.push (t name)).upTo rest

def readTypeTag (x : Lexer) : Option Lexer := do
  let x ← x.saveCandidate
  let (type, rest) ← readTag x.cursor.rest
  return (x.allowKey false |>.push (.tag type)).upTo rest

def readLiteralScalar (x : Lexer) (folds : Bool) : Option Lexer := do
  let x ← x.saveCandidate
  let (text, rest) ← readLiteral folds x.least (x.cursor.column + 1) (x.cursor.rest.drop 1)
  return (x.allowKey true |>.push (.scalar ⟨text, false⟩)).upTo rest

def readQuotedScalar (x : Lexer) (quote : Char) : Option Lexer := do
  let x ← x.saveCandidate
  let body := x.cursor.rest.drop 1
  let (text, rest) ← readQuoted quote (body.length + 1) false .none body
  let x := (x.allowKey false |>.push (.scalar ⟨text, false⟩)).upTo rest
  return { x with adjacent := x.cursor.index }

/-- A plain scalar that ends with its line lets a key follow. -/
def readPlainScalar (x : Lexer) : Option Lexer := do
  let x ← x.saveCandidate
  let (text, gap, rest) ← readPlain x.inFlow x.least x.cursor.column .none x.cursor.rest
  return (x.allowKey gap.crossesLine |>.push (.scalar ⟨text, true⟩)).upTo rest

/-- Whether a colon before `cs` is an indicator. -/
def isValueMark (x : Lexer) (cs : List Char) : Bool :=
  startsGap cs || (x.inFlow && (startsFlowMark cs || x.cursor.index == x.adjacent))

/-- The next token of a text that goes on with `c` and `cs`. -/
def readToken (x : Lexer) (c : Char) (cs : List Char) : Option Lexer :=
  if x.cursor.column == 0 && c == '%' then x.readDirective
  else if x.cursor.column == 0 && startsDocumentMark (c :: cs) then
    x.readDocumentMark (if c == '-' then .documentStart else .documentEnd)
  else
    match c with
    | '[' => x.openFlow .flowSequenceStart
    | '{' => x.openFlow .flowMappingStart
    | ']' => x.closeFlow .flowSequenceEnd
    | '}' => x.closeFlow .flowMappingEnd
    | ',' => x.readFlowEntry
    | '-' => if startsGap cs then x.readBlockEntry else x.readPlainScalar
    | '?' => if startsGap cs then x.readKey else x.readPlainScalar
    | ':' => if x.isValueMark cs then x.readValue else x.readPlainScalar
    | '*' => x.readAnchor .alias
    | '&' => x.readAnchor .anchor
    | '!' => x.readTypeTag
    | '|' => if x.inFlow then x.readPlainScalar else x.readLiteralScalar false
    | '>' => if x.inFlow then x.readPlainScalar else x.readLiteralScalar true
    | '\'' | '"' => x.readQuotedScalar c
    | _ => if "%@`".toList.contains c then none else x.readPlainScalar

/-- Reads up to the end of the text; every token takes at least one character. -/
def readAll : Nat → Lexer → Option Lexer
  | 0, _ => none
  | fuel + 1, x => do
    let x ← x.toNextToken.dropStale
    let x := x.closeBlocks (x.cursor.column < ·)
    match x.cursor.rest with
    | [] => x.endContent
    | c :: cs => readAll fuel (← x.readToken c cs)

end Lexer

/-- The tokens of a text, if it is well-formed that far. -/
def tokens? (text : List Char) : Option (List Token) :=
  (Lexer.readAll (text.length + 1) (.start text)).map (·.tokens.toList)

example : tokens? "a: 1".toList =
    some [.blockMappingStart, .key, .scalar ⟨['a'], true⟩, .value, .scalar ⟨['1'], true⟩, .blockEnd] := by
  decide +kernel

example : tokens? "[a,'b']".toList =
    some [.flowSequenceStart, .scalar ⟨['a'], true⟩, .flowEntry, .scalar ⟨['b'], false⟩,
      .flowSequenceEnd] := by
  decide +kernel

end OutOfOrder.Yaml
