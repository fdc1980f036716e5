import Coalition.Text.Character
import Coalition.Text.Quoted

-- Lexemes: names, numbers, texts in quotation marks and single signs, with the place where each one starts.

set_option autoImplicit false

namespace Coalition.Text

structure Position where
  line : Nat
  column : Nat
deriving DecidableEq, Repr

def Position.after (p : Position) (c : Char) : Position :=
  if c = '\n' then ⟨p.line + 1, 1⟩ else ⟨p.line, p.column + 1⟩

structure Complaint where
  message : String
  position : Position

/-- The unread part of a text and the position of its first character. -/
structure Cursor where
  unread : List Char
  position : Position

inductive LexemeKind where
  | ending
  | name
  | number
  | quotation
  | sign
deriving DecidableEq

structure Lexeme where
  kind : LexemeKind
  text : List Char
  start : Position
  complaints : List Complaint

/-- Which characters make names, and whether digits make numbers. -/
structure LexemeRules where
  startsName : Char → Bool
  continuesName : Char → Bool
  numbers : Bool

def nul : Char := Char.ofNat 0

def nulMessage : String := "invalid character NUL"

/-- A NUL is complained about as soon as it is the next character. -/
def complainAhead (unread : List Char) (position : Position) : List Complaint :=
  if unread.head? = some nul then [⟨nulMessage, position⟩] else []

/-- The start of a text, after a byte order mark, and a complaint about its first character. -/
def Cursor.ofText (text : List Char) : Cursor × List Complaint :=
  let cursor : Cursor :=
    match text with
    | c :: rest => if c.toNat = 0xFEFF then ⟨rest, 1, 2⟩ else ⟨text, 1, 1⟩
    | [] => ⟨[], 1, 1⟩
  (cursor, complainAhead cursor.unread cursor.position)

def Cursor.next (cursor : Cursor) : Option (Char × Cursor × List Complaint) :=
  match cursor.unread with
  | [] => none
  | c :: rest =>
      let position := cursor.position.after c
      some (c, ⟨rest, position⟩, complainAhead rest position)

def isSpace (c : Char) : Bool := c == ' ' || c == '\t' || c == '\n' || c == '\r'

inductive QuotationState where
  | plain
  | escape
  | digits (base left : Nat)

/-- The state in which a character is read, given that a broken escape is plain text. -/
def QuotationState.settle (state : QuotationState) (c : Char) : QuotationState × List String :=
  match state with
  | .plain => (.plain, [])
  | .escape =>
      if "abfnrtv\\\"01234567xuU".contains c then (.escape, []) else (.plain, ["invalid char escape"])
  | .digits _ 0 => (.plain, [])
  | .digits base left =>
      match digitOf c with
      | some d => if d < base then (.digits base left, []) else (.plain, ["invalid char escape"])
      | none => (.plain, ["invalid char escape"])
where
  digitOf (c : Char) : Option Nat :=
    if c.isDigit then some (c.toNat - 48)
    else if 'a' ≤ c.toLower ∧ c.toLower ≤ 'f' then some (c.toLower.toNat - 87)
    else none

def QuotationState.step (state : QuotationState) (c : Char) : QuotationState :=
  match state with
  | .plain => if c = '\\' then .escape else .plain
  | .escape =>
      if c.isDigit then .digits 8 2
      else if c = 'x' then .digits 16 2
      else if c = 'u' then .digits 16 4
      else if c = 'U' then .digits 16 8
      else .plain
  | .digits base left => .digits base (left - 1)

/-- The unread text from the end of a quotation on, that end included. -/
def readQuotation : QuotationState → List Char → List String → List Char × List String
  | state, [], said =>
      let broken :=
        match state with
        | .escape => ["invalid char escape"]
        | .digits _ (_ + 1) => ["invalid char escape"]
        | _ => []
      ([], said ++ broken ++ ["literal not terminated"])
  | state, c :: rest, said =>
      let said := if c = nul then said ++ [nulMessage] else said
      let (state, broken) := state.settle c
      let said := said ++ broken
      match state with
      | .plain =>
          if c = '"' then (c :: rest, said)
          else if c = '\n' then (c :: rest, said ++ ["literal not terminated"])
          else readQuotation (state.step c) rest said
      | _ => readQuotation (state.step c) rest said

def isHexDigit (c : Char) : Bool := c.isDigit || ('a' ≤ c.toLower && c.toLower ≤ 'f')

inductive Radix where
  | decimal
  | leadingZero
  | hexadecimal
  | octal
  | binary
deriving DecidableEq

def Radix.base : Radix → Nat
  | .decimal => 10
  | .leadingZero => 8
  | .hexadecimal => 16
  | .octal => 8
  | .binary => 2

def Radix.literal : Radix → String
  | .decimal => "decimal literal"
  | .leadingZero => "octal literal"
  | .hexadecimal => "hexadecimal literal"
  | .octal => "octal literal"
  | .binary => "binary literal"

def radixOf : List Char → Radix × List Char
  | '0' :: c :: rest =>
      if c = 'x' ∨ c = 'X' then (.hexadecimal, rest)
      else if c = 'o' ∨ c = 'O' then (.octal, rest)
      else if c = 'b' ∨ c = 'B' then (.binary, rest)
      else (.leadingZero, c :: rest)
  | '0' :: [] => (.leadingZero, [])
  | cs => (.decimal, cs)

/-- Underscores stand between digits, where a base mark counts as one. -/
def misplacedSeparator (number : List Char) : Bool :=
  let (radix, body) := radixOf number
  match radix with
  | .hexadecimal => go isHexDigit '0' body
  | .octal => go Char.isDigit '0' body
  | .binary => go Char.isDigit '0' body
  | _ => go Char.isDigit '.' number
where
  go (digit : Char → Bool) : Char → List Char → Bool
    | last, [] => last == '_'
    | last, c :: rest =>
        if c == '_' then last != '0' || go digit '_' rest
        else if digit c then go digit '0' rest
        else last == '_' || go digit '.' rest

def readNumber (cs : List Char) : List Char × List Char × List String :=
  let (radix, body) := radixOf cs
  let inNumber := fun c => c == '_' || (if radix = .hexadecimal then isHexDigit c else c.isDigit)
  let run := body.takeWhile inNumber
  let rest := body.dropWhile inNumber
  let text := cs.take (cs.length - rest.length)
  let digitless := radix != .leadingZero && run.all (· == '_')
  let bad := run.find? fun c => c.isDigit && 48 + radix.base ≤ c.toNat
  (text, rest,
    (if digitless then [radix.literal ++ " has no digits"] else []) ++
    (match bad with
      | some c =>
          if radix = .hexadecimal then []
          else ["invalid digit " ++ quotedChar c ++ " in " ++ radix.literal]
      | none => []) ++
    (if run.contains '_' && misplacedSeparator text then
      ["'_' must separate successive digits"]
    else []))

def Cursor.lexeme (rules : LexemeRules) (cursor : Cursor) : Lexeme × Cursor :=
  let blanks := cursor.unread.takeWhile isSpace
  let unread := cursor.unread.dropWhile isSpace
  let start := blanks.foldl Position.after cursor.position
  let before := if blanks.isEmpty then [] else complainAhead unread start
  let here (said : List String) : List Complaint := said.map fun message => ⟨message, start⟩
  match unread with
  | [] => (⟨.ending, [], start, before⟩, ⟨[], start⟩)
  | c :: rest =>
      if rules.startsName c then
        let name := c :: rest.takeWhile rules.continuesName
        let rest := rest.dropWhile rules.continuesName
        (⟨.name, name, start, before ++ complainAhead rest start⟩,
          ⟨rest, name.foldl Position.after start⟩)
      else if rules.numbers && c.isDigit then
        let (number, rest, said) := readNumber (c :: rest)
        (⟨.number, number, start, before ++ complainAhead rest start ++ here said⟩,
          ⟨rest, number.foldl Position.after start⟩)
      else if c = '"' then
        let (ending, said) := readQuotation .plain rest []
        let rest' := ending.drop 1
        let quotation := (c :: rest).take (rest.length + 1 - rest'.length)
        (⟨.quotation, quotation, start, before ++ here said ++ complainAhead rest' start⟩,
          ⟨rest', quotation.foldl Position.after start⟩)
      else
        (⟨.sign, [c], start, before ++ complainAhead rest start⟩, ⟨rest, start.after c⟩)

end Coalition.Text
