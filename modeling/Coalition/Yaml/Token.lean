import Coalition.Yaml.Scalar

-- Indentation becomes tokens of its own, and a key is marked as such when the colon after it is met: until then every token that may be a
-- key is remembered.

set_option autoImplicit false

namespace Coalition.Yaml

inductive TokenKind where
  | documentStart
  | documentEnd
  | blockSequenceStart
  | blockMappingStart
  | blockEnd
  | flowSequenceStart
  | flowSequenceEnd
  | flowMappingStart
  | flowMappingEnd
  | blockEntry
  | flowEntry
  | key
  | value
  | scalar (text : String) (plain : Bool)
  | streamEnd
deriving DecidableEq

structure Token where
  kind : TokenKind
  line : Nat

structure PossibleKey where
  required : Bool
  line : Nat
  column : Nat
  index : Nat

def maxKeyLength : Nat := 1024

def PossibleKey.isStale (key : PossibleKey) (cur : Cursor) : Bool :=
  key.line < cur.line || key.index + maxKeyLength < cur.index

-- What may be a key inside an open flow collection, or in the block around them all.
structure Level where
  /-- The place of the token remembered last; at first, of the one that opened the collection. -/
  place : Nat := 0
  key : Option PossibleKey := none

structure Scanner where
  cursor : Cursor
  queue : List Token := []
  handed : Nat := 0
  indents : List Nat := []
  levels : List Level := [{}]
  /-- The places of tokens that may be keys, with the number of flow collections around them. -/
  held : List (Nat × Nat) := []
  keyAllowed : Bool := true
  /-- Whether the text starts with two byte order marks: the first character of a line is then left
  out, wherever a token may start. -/
  marked : Bool := false

def lookahead : Nat := 2

def commentReach : Nat := 512

namespace Scanner

def depth (s : Scanner) : Nat := s.levels.length - 1

def inFlow (s : Scanner) : Bool := 0 < s.depth

-- The column of the innermost block; there is none before the first.
def indent (s : Scanner) : Int :=
  match s.indents with
  | [] => -1
  | column :: _ => column

def place (s : Scanner) : Nat := s.handed + s.queue.length

def emit (s : Scanner) (kind : TokenKind) : Scanner :=
  { s with queue := s.queue ++ [⟨kind, s.cursor.line⟩] }

def take (s : Scanner) (kind : TokenKind) (length : Nat) : Scanner :=
  let s := s.emit kind
  { s with cursor := s.cursor.skipMany length }

-- Put a token before the one at a place; behind all others if that one has been handed over.
def insert (s : Scanner) (place : Nat) (token : Token) : Scanner :=
  let n := if place < s.handed then s.queue.length else place - s.handed
  { s with queue := s.queue.take n ++ token :: s.queue.drop n }

def release (s : Scanner) (place : Nat) : Scanner :=
  { s with held := s.held.filter (·.1 != place) }

def key? (s : Scanner) : Option (PossibleKey × Nat) :=
  s.levels.head?.bind fun level => level.key.map (·, level.place)

def forget (s : Scanner) : Scanner :=
  match s.levels with
  | level :: rest => { s with levels := { level with key := none } :: rest }
  | [] => s

-- Give up the remembered key; one that is required must not be.
def dropKey (s : Scanner) : Option Scanner :=
  match s.key? with
  | some (key, place) => if key.required then none else some (s.forget.release place)
  | none => some s

def saveKey (s : Scanner) : Option Scanner := do
  if !s.keyAllowed then return s
  let cur := s.cursor
  let key : PossibleKey := ⟨!s.inFlow && s.indent == cur.column, cur.line, cur.column, cur.index⟩
  let s ← s.dropKey
  return { s with
    levels := ⟨s.place, some key⟩ :: s.levels.drop 1
    held := (s.place, s.depth) :: s.held }

def unroll (s : Scanner) (column : Int) (line : Nat) : Scanner :=
  if s.inFlow then s
  else
    let closed := s.indents.takeWhile fun c => column < Int.ofNat c
    { s with
      indents := s.indents.drop closed.length
      queue := s.queue ++ closed.map fun _ => ⟨.blockEnd, line⟩ }

-- Open a block at a column if it is deeper than the one around it.
def roll (s : Scanner) (column place line : Nat) (kind : TokenKind) : Scanner :=
  if s.inFlow || column ≤ s.indent then s
  else { s.insert place ⟨kind, line⟩ with indents := column :: s.indents }

def rollHere (s : Scanner) (kind : TokenKind) : Scanner :=
  s.roll s.cursor.column s.place s.cursor.line kind

def allow (s : Scanner) (keyAllowed : Bool) : Scanner := { s with keyAllowed }

def skipComment (cur : Cursor) : Cursor := cur.skipWhile fun c => !isBreak c

def skipTrailing (cur : Cursor) : Cursor :=
  let blanks := (cur.unread.takeWhile isBlank).length
  if blanks < commentReach && (cur.unread.drop blanks).head? == some '#' then
    skipComment (cur.skipMany blanks)
  else cur

-- Leave out the comment lines that follow a comment, however they are indented.
def skipComments : (fuel : Nat) → Cursor → Cursor
  | 0, cur => cur
  | fuel + 1, cur =>
      let gap := cur.unread.takeWhile fun c => isBlank c || c == '\n' || c == '\r'
      match readGap 0 gap.length {} cur with
      | some (_, next) =>
          if gap.length < commentReach && next.head? == some '#' then
            skipComments fuel (skipComment next)
          else cur
      | none => cur

-- Leave out blanks, comments and line breaks before the next token.
def skipToToken : (fuel : Nat) → Scanner → Scanner
  | 0, s => s
  | fuel + 1, s =>
      let tabs := s.inFlow || !s.keyAllowed
      let cur := if s.marked && s.cursor.column == 0 then s.cursor.skip else s.cursor
      let cur := cur.skipWhile fun c => c == ' ' || (tabs && c == '\t')
      let cur := if cur.head? == some '#' then skipComments fuel (skipComment cur) else cur
      if cur.atBreak then
        skipToToken fuel { s with cursor := cur.readLine.2, keyAllowed := s.keyAllowed || !s.inFlow }
      else { s with cursor := cur }

-- A colon: the value of a remembered key, or of an empty or complex one.
def takeValue (s : Scanner) : Option Scanner :=
  let complex (s : Scanner) : Option Scanner :=
    if s.inFlow then some ((s.allow false).take .value 1)
    else if !s.keyAllowed then none
    else some (((s.rollHere .blockMappingStart).allow true).take .value 1)
  match s.key? with
  | some (key, place) =>
      if key.isStale s.cursor then
        if key.required then none else complex s.forget
      else
        let s := (s.forget.release place).insert place ⟨.key, key.line⟩
        let s := s.roll key.column place key.line .blockMappingStart
        some ((s.allow false).take .value 1)
  | none => complex s

def takeEntry (s : Scanner) (block entry : TokenKind) (keyAfter : Bool) : Option Scanner := do
  if !s.inFlow && !s.keyAllowed then none
  let s := if s.inFlow then s else s.rollHere block
  let s ← s.dropKey
  return (s.allow keyAfter).take entry 1

def openFlow (s : Scanner) (kind : TokenKind) : Option Scanner := do
  let s ← s.saveKey
  return ({ s with levels := ⟨s.place, none⟩ :: s.levels }.allow true).take kind 1

-- A collection in which nothing could be a key is not waited for any more.
def closeFlow (s : Scanner) (kind : TokenKind) : Option Scanner := do
  let s ← s.dropKey
  let s :=
    match s.levels with
    | level :: outer :: rest => { s with levels := outer :: rest }.release level.place
    | _ => s
  return (s.allow false).take kind 1

def takePlain (s : Scanner) : Option Scanner := do
  let s ← s.saveKey
  let cur := s.cursor
  let (text, broken, rest) ←
    readPlain s.inFlow (s.indent + 1).toNat (cur.unread.length + 1) [] {} cur
  let s := s.emit (.scalar (String.ofList text) true)
  return { s with cursor := rest, keyAllowed := broken }

def takeQuoted (s : Scanner) (mark : Char) : Option Scanner := do
  let s ← s.saveKey
  let cur := s.cursor
  let (text, rest) ← readQuoted mark (cur.unread.length + 1) [] cur.skip
  let s := s.emit (.scalar (String.ofList text) false)
  return { s with cursor := rest, keyAllowed := false }

def takeBlock (s : Scanner) (literal : Bool) : Option Scanner := do
  let s ← s.dropKey
  let (text, rest) ← readBlock literal s.indent s.cursor.skip
  let s := s.emit (.scalar (String.ofList text) false)
  return { s with cursor := rest, keyAllowed := true }

def takeDocumentMark (s : Scanner) (kind : TokenKind) : Option Scanner := do
  let s ← (s.unroll (-1) s.cursor.line).dropKey
  return (s.allow false).take kind 3

def takeEnd (s : Scanner) : Option Scanner := do
  let cur := s.cursor
  let cur := if cur.column == 0 then cur else { cur with line := cur.line + 1, column := 0 }
  let s ← ({ s with cursor := cur }.unroll (-1) cur.line).dropKey
  return (s.allow false).emit .streamEnd

def startsPlain (inFlow : Bool) (c : Char) (rest : List Char) : Bool :=
  if c == '-' then !(rest.head?.any isBlank)
  else if c == '?' || c == ':' then !inFlow && !isGap rest
  else !isBlank c && !isFlowIndicator c && !"#&*!|>'\"%@\x60".contains c

def step (s : Scanner) : Option Scanner :=
  let cur := s.cursor
  match cur.unread with
  | [] => s.takeEnd
  | c :: rest =>
      if c == '%' && cur.column == 0 then none
      else if cur.atDocumentMark then
        s.takeDocumentMark (if c == '-' then .documentStart else .documentEnd)
      else if c == '[' then s.openFlow .flowSequenceStart
      else if c == '\x7b' then s.openFlow .flowMappingStart
      else if c == ']' then s.closeFlow .flowSequenceEnd
      else if c == '\x7d' then s.closeFlow .flowMappingEnd
      else if c == ',' then s.dropKey.map fun s => (s.allow true).take .flowEntry 1
      else if c == '-' && isGap rest then s.takeEntry .blockSequenceStart .blockEntry true
      else if c == '?' && (s.inFlow || isGap rest) then
        s.takeEntry .blockMappingStart .key !s.inFlow
      else if c == ':' && (s.inFlow || isGap rest) then s.takeValue
      else if c == '|' && !s.inFlow then s.takeBlock true
      else if c == '>' && !s.inFlow then s.takeBlock false
      else if c == '\'' || c == '"' then s.takeQuoted c
      else if startsPlain s.inFlow c rest then s.takePlain
      else none

-- Whether a comment on the same line belongs to the last token. A scalar after which a key may
-- start has taken the end of its line with it.
def takesComment (s : Scanner) : Bool :=
  match s.queue.getLast? with
  | some ⟨.scalar .., _⟩ => !s.keyAllowed
  | some ⟨.blockEntry, _⟩ | some ⟨.documentStart, _⟩ | some ⟨.documentEnd, _⟩ => false
  | _ => true

def fetch (s : Scanner) : Option Scanner := do
  let line := s.cursor.line
  let s := skipToToken (s.cursor.unread.length + 1) s
  let s ← (s.unroll s.cursor.column line).step
  return if s.takesComment then { s with cursor := skipTrailing s.cursor } else s

def currentKey? (s : Scanner) : Option PossibleKey := do
  let depth ← s.held.lookup s.handed
  (← s.levels.reverse[depth]?).key

-- Scan until the current token is known: those that follow it closely are there, and no colon can
-- make a key of it.
def fill : (fuel : Nat) → Scanner → Option Scanner
  | 0, _ => none
  | fuel + 1, s => do
      if s.queue.length ≤ lookahead then fill fuel (← s.fetch)
      else
        match s.currentKey? with
        | none => return s
        | some key =>
            if !key.isStale s.cursor then fill fuel (← s.fetch)
            else if key.required then none
            else return s

-- The current token. Every token that is scanned takes a character or is the end.
def peek (s : Scanner) : Option (Token × Scanner) := do
  let s ← s.fill (s.cursor.unread.length + lookahead + 2)
  return (← s.queue.head?, s)

def advance (s : Scanner) : Scanner :=
  { s with queue := s.queue.drop 1, handed := s.handed + 1 }

-- The start of a text, if it has no characters that are not allowed.
def ofText (text : List Char) : Option Scanner :=
  let isMark (text : List Char) : Bool := text.head? == some (Char.ofNat 0xFEFF)
  let unread := if isMark text then text.drop 1 else text
  if unread.all isAllowed then some { cursor := { unread }, marked := isMark unread } else none

end Scanner

end Coalition.Yaml
