import OutOfOrder.Yaml.Node
import OutOfOrder.Yaml.Token.Lexer

/-!
Documents from tokens. A reader takes the tokens that belong to its node off the front and keeps account of
the anchors; a stream has to hold exactly one document.
-/

set_option autoImplicit false

namespace OutOfOrder.Yaml

/-- What is left to be read, the number of the latest anchor with each name, the latest first, the nodes
whose anchors are known and the number for the next anchor. -/
structure Remaining where
  tokens : List Token
  names : List (List Char × Nat)
  anchored : List (Nat × Node)
  nextAnchor : Nat

abbrev NodeReader := StateT Remaining Option

namespace NodeReader

def refuse {α : Type} : NodeReader α := fun _ => none

/-- The next token; it stays where it is. -/
def peek : NodeReader (Option Token) := do return (← get).tokens.head?

def pass : NodeReader Unit := modify fun r => { r with tokens := r.tokens.tail }

def nextIs (ts : List Token) : NodeReader Bool := do return (← peek).any ts.contains

/-- Passes over the next token if it is the given one. -/
def passIf (t : Token) : NodeReader Bool := do
  if (← peek) == some t then
    pass
    return true
  else return false

def newAnchor (name : List Char) : NodeReader Nat := do
  let r ← get
  set { r with names := (name, r.nextAnchor) :: r.names, nextAnchor := r.nextAnchor + 1 }
  return r.nextAnchor

def define (anchor : Option Nat) (node : Node) : NodeReader Node := do
  match anchor with
  | some n => modify fun r => { r with anchored := (n, node) :: r.anchored }
  | none => pure ()
  return node

/-- The anchor and the type tag before a node, in either order. -/
def readProperties : NodeReader (Option Nat × Option TypeTag) := do
  match ← peek with
  | some (.anchor name) => do
    pass
    let anchor ← newAnchor name
    match ← peek with
    | some (.tag type) => do
      pass
      return (some anchor, some type)
    | _ => return (some anchor, none)
  | some (.tag type) => do
    pass
    match ← peek with
    | some (.anchor name) => do
      pass
      return (some (← newAnchor name), some type)
    | _ => return (none, some type)
  | _ => return (none, none)

mutual

/-- A node. Block collections need a place where they are allowed, and so do the items right below a key,
which are not indented. -/
def readNode (fuel : Nat) (inBlock belowKey : Bool) : NodeReader Node :=
  match fuel with
  | 0 => refuse
  | fuel + 1 => do
    match ← peek with
    | some (.alias name) =>
      pass
      match (← get).names.lookup name with
      | some anchor => return .alias anchor
      | none => refuse
    | _ =>
      let (anchor, type) ← readProperties
      define anchor (← readContent fuel inBlock belowKey type (anchor.isSome || type.isSome))

/-- A node without its properties; one that has any may be empty. -/
def readContent (fuel : Nat) (inBlock belowKey : Bool) (type : Option TypeTag) (mayBeEmpty : Bool) :
    NodeReader Node :=
  match fuel with
  | 0 => refuse
  | fuel + 1 => do
    match ← peek, inBlock, belowKey with
    | some .blockEntry, _, true => return .sequence (← readItemsBelowKey fuel)
    | some (.scalar content), _, _ =>
      pass
      return .scalar content type
    | some .flowSequenceStart, _, _ =>
      pass
      return .sequence (← readFlowItems fuel true)
    | some .flowMappingStart, _, _ =>
      pass
      return .mapping (← readFlowPairs fuel true)
    | some .blockSequenceStart, true, _ =>
      pass
      return .sequence (← readBlockItems fuel)
    | some .blockMappingStart, true, _ =>
      pass
      return .mapping (← readBlockPairs fuel)
    | _, _, _ => if mayBeEmpty then return .scalar ⟨[], true⟩ type else refuse

/-- The items of a block sequence up to its end. -/
def readBlockItems (fuel : Nat) : NodeReader (List Node) :=
  match fuel with
  | 0 => refuse
  | fuel + 1 => do
    if ← passIf .blockEnd then return []
    if ← passIf .blockEntry then
      let item ← if ← nextIs [.blockEntry, .blockEnd] then pure .absent else readNode fuel true false
      return item :: (← readBlockItems fuel)
    refuse

/-- The items of a sequence that is not indented; nothing tells of its end. -/
def readItemsBelowKey (fuel : Nat) : NodeReader (List Node) :=
  match fuel with
  | 0 => refuse
  | fuel + 1 => do
    if ← passIf .blockEntry then
      let item ←
        if ← nextIs [.blockEntry, .key, .value, .blockEnd] then pure .absent
        else readNode fuel true false
      return item :: (← readItemsBelowKey fuel)
    return []

/-- The entries of a block mapping up to its end. A key or a value may be missing. -/
def readBlockPairs (fuel : Nat) : NodeReader (List (Node × Node)) :=
  match fuel with
  | 0 => refuse
  | fuel + 1 => do
    if ← passIf .blockEnd then return []
    let key ←
      if ← passIf .key then readSide fuel
      else if ← nextIs [.value] then pure .absent
      else refuse
    let value ← if ← passIf .value then readSide fuel else pure .absent
    return (key, value) :: (← readBlockPairs fuel)

/-- A key or a value in a block mapping. -/
def readSide (fuel : Nat) : NodeReader Node :=
  match fuel with
  | 0 => refuse
  | fuel + 1 => do
    if ← nextIs [.key, .value, .blockEnd] then return .absent else readNode fuel true true

/-- The items of a flow sequence up to its end. A pair makes a mapping of its own. -/
def readFlowItems (fuel : Nat) (first : Bool) : NodeReader (List Node) :=
  match fuel with
  | 0 => refuse
  | fuel + 1 => do
    if ← passIf .flowSequenceEnd then return []
    if !first then
      if !(← passIf .flowEntry) then refuse
    if ← passIf .flowSequenceEnd then return []
    let item ← if ← passIf .key then readSinglePair fuel else readNode fuel false false
    return item :: (← readFlowItems fuel false)

/-- A pair in a flow sequence. A missing key takes the token with it that shows that it is missing. -/
def readSinglePair (fuel : Nat) : NodeReader Node :=
  match fuel with
  | 0 => refuse
  | fuel + 1 => do
    let key ←
      if ← nextIs [.value, .flowEntry, .flowSequenceEnd] then
        pass
        pure .absent
      else readNode fuel false false
    let value ← readFlowValue fuel .flowSequenceEnd
    return .mapping [(key, value)]

/-- The value after a colon, if there is a colon and a value. -/
def readFlowValue (fuel : Nat) (closing : Token) : NodeReader Node :=
  match fuel with
  | 0 => refuse
  | fuel + 1 => do
    if ← passIf .value then
      if ← nextIs [.flowEntry, closing] then return .absent else readNode fuel false false
    else return .absent

/-- The entries of a flow mapping up to its end; one without any mark is a key alone. -/
def readFlowPairs (fuel : Nat) (first : Bool) : NodeReader (List (Node × Node)) :=
  match fuel with
  | 0 => refuse
  | fuel + 1 => do
    if ← passIf .flowMappingEnd then return []
    if !first then
      if !(← passIf .flowEntry) then refuse
    if ← passIf .flowMappingEnd then return []
    let pair ←
      if ← passIf .key then
        let key ←
          if ← nextIs [.value, .flowEntry, .flowMappingEnd] then pure .absent
          else readNode fuel false false
        pure (key, ← readFlowValue fuel .flowMappingEnd)
      else if ← nextIs [.value] then pure (.absent, ← readFlowValue fuel .flowMappingEnd)
      else pure (← readNode fuel false false, .absent)
    return pair :: (← readFlowPairs fuel false)

end

def passDirectives : Nat → NodeReader Unit
  | 0 => pure ()
  | n + 1 => do
    if ← passIf .directive then passDirectives n

/-- The root of the first document; it may be empty only behind a mark. -/
def readRoot (fuel : Nat) : NodeReader Node := do
  if ← nextIs [.directive, .documentStart] then
    passDirectives fuel
    if !(← passIf .documentStart) then refuse
    if (← peek).isNone || (← nextIs [.directive, .documentStart, .documentEnd]) then return .absent
  readNode fuel true false

end NodeReader

/-- The only document that the tokens of a stream make. -/
def Document.ofTokens? (ts : List Token) : Option Document := do
  if ts.isEmpty then none
  let (root, r) ← (NodeReader.readRoot (4 * ts.length + 4)).run ⟨ts, [], [], 0⟩
  if r.tokens.all (· == .documentEnd) then some ⟨root, r.anchored⟩ else none

def read (text : List Char) : Option Document := do Document.ofTokens? (← tokens? text)

end OutOfOrder.Yaml
