import Coalition.Yaml.Cursor

-- Line breaks inside plain and quoted scalars are folded: one break is a blank, more are the breaks after the first.

set_option autoImplicit false

namespace Coalition.Yaml

structure Gap where
  blanks : List Char := []
  first : List Char := []
  more : List Char := []
  broken : Bool := false

def Gap.text (g : Gap) : List Char :=
  if !g.broken then g.blanks
  else if g.first == ['\n'] then (if g.more.isEmpty then [' '] else g.more)
  else g.first ++ g.more

-- Read white space; a tab before column `tabLimit` of a new line is refused.
def readGap (tabLimit : Nat) : (fuel : Nat) → Gap → Cursor → Option (Gap × Cursor)
  | 0, g, cur => some (g, cur)
  | fuel + 1, g, cur =>
      match cur.head? with
      | none => some (g, cur)
      | some c =>
          if isBlank c then
            if g.broken then
              if c == '\t' && cur.column < tabLimit then none
              else readGap tabLimit fuel g cur.skip
            else readGap tabLimit fuel { g with blanks := g.blanks ++ [c] } cur.skip
          else if isBreak c then
            let (text, cur) := cur.readLine
            if g.broken then readGap tabLimit fuel { g with more := g.more ++ text } cur
            else readGap tabLimit fuel { g with blanks := [], first := text, broken := true } cur
          else some (g, cur)

def isFlowIndicator (c : Char) : Bool := ",[]\x7b\x7d".contains c

-- The part of a plain scalar up to white space or an indicator that ends it.
def plainPart (inFlow : Bool) : List Char → List Char
  | [] => []
  | c :: rest =>
      if isBlank c || isBreak c then []
      else if c == ':' && isGap rest then []
      else if inFlow && (isFlowIndicator c || c == '?') then []
      else c :: plainPart inFlow rest

-- A plain scalar: its value, whether it ended on a later line, and the rest.
def readPlain (inFlow : Bool) (indent : Nat) : (fuel : Nat) → List Char → Gap → Cursor →
    Option (List Char × Bool × Cursor)
  | 0, value, g, cur => some (value, g.broken, cur)
  | fuel + 1, value, g, cur =>
      if cur.atDocumentMark || cur.head? == some '#' then some (value, g.broken, cur)
      else
        let part := plainPart inFlow cur.unread
        let (value, g) := if part.isEmpty then (value, g) else (value ++ g.text ++ part, {})
        let cur := cur.skipMany part.length
        if !cur.atBlank && !cur.atBreak then some (value, g.broken, cur)
        else
          match readGap indent cur.unread.length g cur with
          | none => none
          | some (g, cur) =>
              if !inFlow && cur.column < indent then some (value, g.broken, cur)
              else readPlain inFlow indent fuel value g cur

def hexValue (cs : List Char) : Option Nat :=
  cs.foldlM (fun n c =>
    if c.isDigit then some (n * 16 + (c.toNat - 48))
    else if 'a' ≤ c ∧ c ≤ 'f' then some (n * 16 + (c.toNat - 87))
    else if 'A' ≤ c ∧ c ≤ 'F' then some (n * 16 + (c.toNat - 55))
    else none) 0

-- The character of an escape after its backslash, and the length of the escape.
def escaped : List Char → Option (Char × Nat)
  | [] => none
  | c :: rest =>
      let coded (length : Nat) : Option (Char × Nat) :=
        let digits := rest.take length
        if digits.length < length then none
        else
          (hexValue digits).bind fun n => if n.isValidChar then some (Char.ofNat n, length + 1) else none
      let plain (n : Nat) : Option (Char × Nat) := some (Char.ofNat n, 1)
      match c with
      | '0' => plain 0
      | 'a' => plain 7
      | 'b' => plain 8
      | 't' | '\t' => plain 9
      | 'n' => plain 10
      | 'v' => plain 11
      | 'f' => plain 12
      | 'r' => plain 13
      | 'e' => plain 27
      | ' ' | '"' | '\'' | '\\' => plain c.toNat
      | 'N' => plain 0x85
      | '_' => plain 0xA0
      | 'L' => plain 0x2028
      | 'P' => plain 0x2029
      | 'x' => coded 2
      | 'u' => coded 4
      | 'U' => coded 8
      | _ => none

-- A part of a quoted scalar without white space, and whether an escaped line break ended it.
def quotedPart (mark : Char) : (fuel : Nat) → List Char → Cursor →
    Option (List Char × Bool × Cursor)
  | 0, value, cur => some (value, false, cur)
  | fuel + 1, value, cur =>
      match cur.unread with
      | [] => some (value, false, cur)
      | c :: rest =>
          if isBlank c || isBreak c then some (value, false, cur)
          else if mark == '\'' && c == '\'' then
            if rest.head? == some '\'' then quotedPart mark fuel (value ++ ['\'']) (cur.skipMany 2)
            else some (value, false, cur)
          else if c == mark then some (value, false, cur)
          else if mark == '"' && c == '\\' then
            if rest.head?.any isBreak then
              let (_, cur) := cur.skip.readLine
              some (value, true, cur)
            else
              match escaped rest with
              | some (d, length) => quotedPart mark fuel (value ++ [d]) (cur.skipMany (length + 1))
              | none => none
          else quotedPart mark fuel (value ++ [c]) cur.skip

-- A quoted scalar after its opening mark, and the rest after the closing one.
def readQuoted (mark : Char) : (fuel : Nat) → List Char → Cursor → Option (List Char × Cursor)
  | 0, _, _ => none
  | fuel + 1, value, cur =>
      if cur.atDocumentMark || cur.unread.isEmpty then none
      else
        match quotedPart mark cur.unread.length value cur with
        | none => none
        | some (value, broken, cur) =>
            if cur.head? == some mark then some (value, cur.skip)
            else
              match readGap 0 cur.unread.length { broken } cur with
              | none => none
              | some (g, cur) => readQuoted mark fuel (value ++ g.text) cur

inductive Chomping where
  | strip
  | clip
  | keep

-- The indicators after the sign of a block: chomping and indentation.
def blockHeader (cur : Cursor) : Option (Chomping × Nat × Cursor) :=
  let chomp (cur : Cursor) : Option (Chomping × Cursor) :=
    match cur.head? with
    | some '+' => some (.keep, cur.skip)
    | some '-' => some (.strip, cur.skip)
    | _ => none
  let digit (cur : Cursor) : Option (Option (Nat × Cursor)) :=
    match cur.head? with
    | some '0' => none
    | some c => some (if c.isDigit then some (c.toNat - 48, cur.skip) else none)
    | none => some none
  match chomp cur with
  | some (chomping, cur) =>
      (digit cur).map fun d => match d with
        | some (n, cur) => (chomping, n, cur)
        | none => (chomping, 0, cur)
  | none =>
      (digit cur).map fun d => match d with
        | some (n, cur) =>
            match chomp cur with
            | some (chomping, cur) => (chomping, n, cur)
            | none => (.clip, n, cur)
        | none => (.clip, 0, cur)

-- Indentation and empty lines before a line of a block; finds the indentation if it is 0.
def blockBreaks (parent : Int) : (fuel : Nat) → (indent deepest : Nat) → List Char → Cursor →
    Option (Nat × List Char × Cursor)
  | 0, indent, _, breaks, cur => some (indent, breaks, cur)
  | fuel + 1, indent, deepest, breaks, cur =>
      let spaces := (cur.unread.takeWhile (· == ' ')).length
      let spaces := if indent == 0 then spaces else min spaces (indent - cur.column)
      let cur := cur.skipMany spaces
      let deepest := max deepest cur.column
      if (indent == 0 || cur.column < indent) && cur.head? == some '\t' then none
      else if cur.atBreak then
        let (text, cur) := cur.readLine
        blockBreaks parent fuel indent deepest (breaks ++ text) cur
      else
        let found := if indent == 0 then max (max deepest (parent + 1).toNat) 1 else indent
        some (found, breaks, cur)

def blockLines (literal : Bool) (parent : Int) (indent : Nat) : (fuel : Nat) → List Char →
    (first more : List Char) → (blankBefore : Bool) → Cursor →
      Option (List Char × List Char × List Char × Cursor)
  | 0, value, first, more, _, cur => some (value, first, more, cur)
  | fuel + 1, value, first, more, blankBefore, cur =>
      if cur.column != indent || cur.unread.isEmpty then some (value, first, more, cur)
      else
        let blankHere := cur.atBlank
        let joined :=
          if !literal && !blankBefore && !blankHere && first == ['\n'] then
            (if more.isEmpty then [' '] else [])
          else first
        let line := cur.unread.takeWhile fun c => !isBreak c
        let (first, next) := (cur.skipMany line.length).readLine
        match blockBreaks parent next.unread.length indent 0 [] next with
        | none => none
        | some (_, breaks, next) =>
            blockLines literal parent indent fuel (value ++ joined ++ more ++ line) first breaks
              blankHere next

def readBlock (literal : Bool) (parent : Int) (cur : Cursor) : Option (List Char × Cursor) := do
  let (chomping, increment, cur) ← blockHeader cur
  let cur := cur.skipWhile isBlank
  let cur := if cur.head? == some '#' then cur.skipWhile fun c => !isBreak c else cur
  if !cur.unread.isEmpty && !cur.atBreak then none
  let (_, cur) := cur.readLine
  let indent := if increment == 0 then 0 else (max parent 0).toNat + increment
  let (indent, breaks, cur) ← blockBreaks parent (cur.unread.length + 1) indent 0 [] cur
  let (value, first, more, cur) ←
    blockLines literal parent indent (cur.unread.length + 1) [] [] breaks false cur
  match chomping with
  | .strip => return (value, cur)
  | .clip => return (value ++ first, cur)
  | .keep => return (value ++ first ++ more, cur)

end Coalition.Yaml
