import OutOfOrder.Yaml.Scalar
import OutOfOrder.Yaml.Token.Gap

/-!
Scalars in quotes. Between single quotes two of them stand for one; between double quotes a backslash
names a character or joins two lines.
-/

set_option autoImplicit false

namespace OutOfOrder.Yaml

/-- The characters with a name of one letter. -/
def namedEscape : Char → Option Char
  | '0' => some (Char.ofNat 0)
  | 'a' => some (Char.ofNat 7)
  | 'b' => some (Char.ofNat 8)
  | 't' => some '\t'
  | '\t' => some '\t'
  | 'n' => some '\n'
  | 'v' => some (Char.ofNat 11)
  | 'f' => some (Char.ofNat 12)
  | 'r' => some '\r'
  | 'e' => some (Char.ofNat 27)
  | ' ' => some ' '
  | '"' => some '"'
  | '\'' => some '\''
  | '\\' => some '\\'
  | 'N' => some (Char.ofNat 0x85)
  | '_' => some (Char.ofNat 0xA0)
  | 'L' => some (Char.ofNat 0x2028)
  | 'P' => some (Char.ofNat 0x2029)
  | _ => none

/-- The number of hexadecimal digits that name a character. -/
def escapeWidth : Char → Option Nat
  | 'x' => some 2
  | 'u' => some 4
  | 'U' => some 8
  | _ => none

def charOfCode? (n : Nat) : Option Char := if n.isValidChar then some (Char.ofNat n) else none

/-- The character with the code point that the first digits spell. -/
def readCodePoint (width : Nat) (cs : List Char) : Option Char := do
  let digits := cs.take width
  if digits.length < width then none
  charOfCode? (← readRadix 16 digits)

/-- What a backslash stands for, and the rest. -/
def readEscape : List Char → Option (Char × List Char)
  | [] => none
  | e :: cs =>
    match escapeWidth e with
    | some width => (readCodePoint width cs).map fun c => (c, cs.drop width)
    | none => (namedEscape e).map fun c => (c, cs)

/-- The text up to the closing quote, and the rest. A line may not start like a document. -/
def readQuoted (quote : Char) (fuel : Nat) (atLineStart : Bool) (gap : Gap) (cs : List Char) :
    Option (List Char × List Char) :=
  match fuel, cs with
  | 0, _ => none
  | _, [] => none
  | fuel + 1, c :: cs =>
    let withText (c : Char) (cs : List Char) : Option (List Char × List Char) := do
      let (text, rest) ← readQuoted quote fuel false .none cs
      return (gap.text ++ c :: text, rest)
    if isBreak c then readQuoted quote fuel (c == '\n') gap.addBreak cs
    else if isSpace c then readQuoted quote fuel false (gap.addSpace c) cs
    else if atLineStart && startsDocumentMark (c :: cs) then none
    else if c == quote then
      match quote, cs with
      | '\'', '\'' :: cs => withText '\'' cs
      | _, cs => some (gap.text, cs)
    else if c == '\\' && quote == '"' then
      match cs with
      | [] => none
      | e :: rest =>
        if isBreak e then do
          let (text, rest) ← readQuoted quote fuel (e == '\n') (.joined 0) rest
          return (gap.text ++ text, rest)
        else do
          let (c, rest) ← readEscape (e :: rest)
          withText c rest
    else withText c cs

end OutOfOrder.Yaml
