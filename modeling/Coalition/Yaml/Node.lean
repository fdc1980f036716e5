import Coalition.Yaml.Token

-- The tree of a YAML document: scalars, sequences and mappings, each with the line it starts on.

set_option autoImplicit false

namespace Coalition.Yaml

inductive Node where
  | scalar (line : Nat) (text : String) (plain : Bool)
  | sequence (line : Nat) (items : List Node)
  | mapping (line : Nat) (entries : List (Node × Node))

namespace Node

def line : Node → Nat
  | .scalar line .. => line
  | .sequence line _ => line
  | .mapping line _ => line

def absent (line : Nat) : Node := .scalar line "" true

def isNull : Node → Bool
  | .scalar _ text plain => plain && ["", "~", "null", "Null", "NULL"].contains text
  | _ => false

def text : Node → String
  | .scalar _ text _ => text
  | _ => ""

end Node

abbrev Reader := StateT Scanner Option

def current : Reader Token := Scanner.peek

def advance : Reader Unit := modify Scanner.advance

mutual
-- A node; in a block it may be a block, and after a key also an unindented sequence.
def readNode : (fuel : Nat) → (block unindented : Bool) → Reader Node
  | 0, _, _ => failure
  | fuel + 1, block, unindented => do
      let t ← current
      match t.kind with
      | .scalar text plain =>
          advance
          return .scalar t.line text plain
      | .flowSequenceStart =>
          advance
          return .sequence t.line (← readFlowItems fuel true)
      | .flowMappingStart =>
          advance
          return .mapping t.line (← readFlowEntries fuel true)
      | .blockEntry =>
          guard unindented
          return .sequence t.line (← readUnindented fuel)
      | .blockSequenceStart =>
          guard block
          advance
          return .sequence t.line (← readBlockItems fuel)
      | .blockMappingStart =>
          guard block
          advance
          return .mapping t.line (← readBlockEntries fuel)
      | _ => failure

-- A node of a block, or an absent one on a line if a token of `without` comes instead.
def readBlockNode : (fuel : Nat) → (without : List TokenKind) → (unindented : Bool) → (line : Nat) →
    Reader Node
  | 0, _, _, _ => failure
  | fuel + 1, without, unindented, line => do
      let t ← current
      if without.contains t.kind then return .absent line
      else readNode fuel true unindented

-- A node in a flow collection, or an absent one if a token of `without` comes instead; it is then
-- where that token is.
def readFlowNode : (fuel : Nat) → (without : List TokenKind) → Reader Node
  | 0, _ => failure
  | fuel + 1, without => do
      let t ← current
      if without.contains t.kind then return .absent t.line
      else readNode fuel false false

def readBlockItems : (fuel : Nat) → Reader (List Node)
  | 0 => failure
  | fuel + 1 => do
      let t ← current
      match t.kind with
      | .blockEntry =>
          advance
          let item ← readBlockNode fuel [.blockEntry, .blockEnd] false t.line
          return item :: (← readBlockItems fuel)
      | .blockEnd =>
          advance
          return []
      | _ => failure

def readUnindented : (fuel : Nat) → Reader (List Node)
  | 0 => failure
  | fuel + 1 => do
      let t ← current
      match t.kind with
      | .blockEntry =>
          advance
          let item ← readBlockNode fuel [.blockEntry, .key, .value, .blockEnd] false t.line
          return item :: (← readUnindented fuel)
      | _ => return []

def readBlockEntries : (fuel : Nat) → Reader (List (Node × Node))
  | 0 => failure
  | fuel + 1 => do
      let t ← current
      match t.kind with
      | .key =>
          advance
          let key ← readBlockNode fuel [.key, .value, .blockEnd] true t.line
          let v ← current
          let value ←
            if v.kind = .value then do
              advance
              readBlockNode fuel [.key, .value, .blockEnd] true v.line
            else pure (.absent v.line)
          return (key, value) :: (← readBlockEntries fuel)
      | .blockEnd =>
          advance
          return []
      | _ => failure

-- The value after a key in a flow collection, if there is one before a token of `without`.
def readFlowValue : (fuel : Nat) → (without : List TokenKind) → Reader Node
  | 0, _ => failure
  | fuel + 1, without => do
      let t ← current
      if t.kind = .value then do
        advance
        readFlowNode fuel without
      else return .absent t.line

-- The items of a flow sequence; an item with a colon is a mapping of one entry.
def readFlowItems : (fuel : Nat) → (first : Bool) → Reader (List Node)
  | 0, _ => failure
  | fuel + 1, first => do
      let t ← current
      if t.kind = .flowSequenceEnd then
        advance
        return []
      if !first then
        guard (t.kind = .flowEntry)
        advance
      let t ← current
      match t.kind with
      | .flowSequenceEnd =>
          advance
          return []
      | .key =>
          advance
          let k ← current
          let key ←
            if [TokenKind.value, .flowEntry, .flowSequenceEnd].contains k.kind then do
              advance
              pure (.absent k.line)
            else readNode fuel false false
          let value ← readFlowValue fuel [.flowEntry, .flowSequenceEnd]
          return .mapping t.line [(key, value)] :: (← readFlowItems fuel false)
      | _ =>
          let item ← readNode fuel false false
          return item :: (← readFlowItems fuel false)

def readFlowEntries : (fuel : Nat) → (first : Bool) → Reader (List (Node × Node))
  | 0, _ => failure
  | fuel + 1, first => do
      let t ← current
      if t.kind = .flowMappingEnd then
        advance
        return []
      if !first then
        guard (t.kind = .flowEntry)
        advance
      let t ← current
      match t.kind with
      | .flowMappingEnd =>
          advance
          return []
      | .key =>
          advance
          let key ← readFlowNode fuel [.value, .flowEntry, .flowMappingEnd]
          let value ← readFlowValue fuel [.flowEntry, .flowMappingEnd]
          return (key, value) :: (← readFlowEntries fuel false)
      | _ =>
          let key ← readNode fuel false false
          let v ← current
          return (key, .absent v.line) :: (← readFlowEntries fuel false)
end

inductive Reading where
  | noDocument
  | document (root : Node)
  | unreadable

-- The first document, if there is one. What follows its root is not looked at, apart from the next
-- token.
def readDocument (fuel : Nat) : Reader (Option Node) := do
  let t ← current
  if t.kind = .streamEnd then return none
  if t.kind = .documentStart then advance
  let next ← current
  let root ←
    if t.kind = .documentStart &&
        [TokenKind.documentStart, .documentEnd, .streamEnd].contains next.kind then
      pure (.absent next.line)
    else readNode fuel true false
  let _ ← current
  return some root

-- The first document of a text. A character gives few tokens, and a token few steps.
def read (text : String) : Reading :=
  let result := do
    let s ← Scanner.ofText text.toList
    (readDocument (8 * text.length + 16)).run s
  match result with
  | none => .unreadable
  | some (none, _) => .noDocument
  | some (some root, _) => .document root

end Coalition.Yaml
