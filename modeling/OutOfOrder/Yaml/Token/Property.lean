import OutOfOrder.Yaml.Cursor
import OutOfOrder.Yaml.Token.Quoted

/-!
What may stand before a node or a document: anchors, type tags and directives.
-/

set_option autoImplicit false

namespace OutOfOrder.Yaml

/-- The name after an ampersand or an asterisk. -/
def readName (cs : List Char) : Option (List Char × List Char) :=
  let name := cs.takeWhile isWordChar
  let rest := cs.dropWhile isWordChar
  let ends := startsGap rest || rest.head?.any fun c => "?:,]\x7d%@`".toList.contains c
  if !name.isEmpty && ends then some (name, rest) else none

def isUriChar (c : Char) : Bool := isWordChar c || ";/?:@&=+$,.!~*'()[]".toList.contains c

/-- How many octets a character takes whose first octet is given. -/
def octetCount (n : Nat) : Option Nat :=
  if n < 0x80 then some 1
  else if n < 0xC0 then none
  else if n < 0xE0 then some 2
  else if n < 0xF0 then some 3
  else if n < 0xF8 then some 4
  else none

def readOctet : List Char → Option (Nat × List Char)
  | '%' :: a :: b :: cs => (readRadix 16 [a, b]).map fun n => (n, cs)
  | _ => none

/-- Octets that continue a character, put behind the code so far. -/
def readOctets : Nat → Nat → List Char → Option (Nat × List Char)
  | 0, code, cs => some (code, cs)
  | n + 1, code, cs => do
    let (octet, rest) ← readOctet cs
    if octet / 0x40 = 2 then readOctets n (code * 0x100 + octet) rest else none

def readUriEscape (cs : List Char) : Option (Char × List Char) := do
  let (octet, rest) ← readOctet cs
  let (code, rest) ← readOctets ((← octetCount octet) - 1) octet rest
  return (← charOfCode? code, rest)

def readUri : Nat → List Char → Option (List Char × List Char)
  | 0, _ => none
  | _, [] => some ([], [])
  | fuel + 1, c :: cs =>
    if c == '%' then do
      let (d, rest) ← readUriEscape (c :: cs)
      let (text, rest) ← readUri fuel rest
      return (d :: text, rest)
    else if isUriChar c then (readUri fuel cs).map fun (text, rest) => (c :: text, rest)
    else some ([], c :: cs)

/-- An exclamation mark and a word, with another mark at the end if there is one. -/
def readHandle : List Char → Option (List Char × List Char)
  | '!' :: cs =>
    let word := cs.takeWhile isWordChar
    match cs.dropWhile isWordChar with
    | '!' :: rest => some ('!' :: word ++ ['!'], rest)
    | rest => some ('!' :: word, rest)
  | _ => none

def isFullHandle (handle : List Char) : Bool := 2 ≤ handle.length && handle.getLast? == some '!'

/-- A tag from its exclamation mark on; white space has to follow it. -/
def readTag (cs : List Char) : Option (TypeTag × List Char) := do
  let (type, rest) ← match cs with
    | '!' :: '<' :: cs => do
      let (uri, rest) ← readUri (cs.length + 1) cs
      match uri, rest with
      | _ :: _, '>' :: rest => pure (TypeTag.other, rest)
      | _, _ => none
    | _ => do
      let (handle, rest) ← readHandle cs
      let (uri, rest) ← readUri (rest.length + 1) rest
      if isFullHandle handle then
        if uri.isEmpty then none else pure (TypeTag.ofParts handle uri, rest)
      else pure (TypeTag.other, rest)
  if startsGap rest then some (type, rest) else none

/-- Up to nine digits. -/
def readVersionNumber (cs : List Char) : Option (List Char) :=
  let digits := cs.takeWhile Char.isDigit
  if digits.isEmpty || 9 < digits.length then none else some (cs.dropWhile Char.isDigit)

/-- What a directive of the given name has to hold; unknown ones hold anything. -/
def passDirectiveValue (name : List Char) (cs : List Char) : Option (List Char) :=
  if name = "YAML".toList then do
    match ← readVersionNumber (dropSpaces cs) with
    | '.' :: rest => readVersionNumber rest
    | _ => none
  else if name = "TAG".toList then do
    let (handle, rest) ← readHandle (dropSpaces cs)
    let (uri, rest) ← readUri (rest.length + 1) (dropSpaces rest)
    let named := isFullHandle handle || handle = ['!']
    if named && !uri.isEmpty && startsGap rest then some rest else none
  else some (dropLine cs)

/-- What is left behind a directive and its line break. -/
def passDirective (cs : List Char) : Option (List Char) := do
  let name := cs.takeWhile isWordChar
  let rest := cs.dropWhile isWordChar
  if name.isEmpty || !startsGap rest then none
  let rest := dropSpaces (← passDirectiveValue name rest)
  match if rest.head? == some '#' then dropLine rest else rest with
  | [] => some []
  | c :: cs => if isBreak c then some cs else none

end OutOfOrder.Yaml
