-- Reading a YAML text character by character, with lines and columns.

set_option autoImplicit false

namespace Coalition.Yaml

structure Cursor where
  unread : List Char
  line : Nat := 1
  column : Nat := 0
  index : Nat := 0

def isBlank (c : Char) : Bool := c == ' ' || c == '\t'

def isBreak (c : Char) : Bool :=
  c == '\n' || c == '\r' || c.toNat == 0x85 || c.toNat == 0x2028 || c.toNat == 0x2029

def isGap : List Char → Bool
  | [] => true
  | c :: _ => isBlank c || isBreak c

def isAllowed (c : Char) : Bool :=
  let n := c.toNat
  n == 9 || n == 10 || n == 13 || (0x20 ≤ n && n ≤ 0x7E) || n == 0x85 ||
    (0xA0 ≤ n && n ≤ 0xD7FF) || (0xE000 ≤ n && n ≤ 0xFFFD) || 0x10000 ≤ n

namespace Cursor

def skip (cur : Cursor) : Cursor :=
  match cur.unread with
  | [] => cur
  | _ :: rest => ⟨rest, cur.line, cur.column + 1, cur.index + 1⟩

def skipMany (cur : Cursor) (n : Nat) : Cursor :=
  ⟨cur.unread.drop n, cur.line, cur.column + n, cur.index + n⟩

def readLine (cur : Cursor) : List Char × Cursor :=
  match cur.unread with
  | '\r' :: '\n' :: rest => (['\n'], ⟨rest, cur.line + 1, 0, cur.index + 2⟩)
  | c :: rest =>
      if isBreak c then
        let text := if c.toNat == 0x2028 || c.toNat == 0x2029 then c else '\n'
        ([text], ⟨rest, cur.line + 1, 0, cur.index + 1⟩)
      else ([], cur)
  | [] => ([], cur)

def head? (cur : Cursor) : Option Char := cur.unread.head?

def atBlank (cur : Cursor) : Bool := cur.head?.any isBlank

def atBreak (cur : Cursor) : Bool := cur.head?.any isBreak

def skipWhile (cur : Cursor) (p : Char → Bool) : Cursor :=
  cur.skipMany (cur.unread.takeWhile p).length

def atDocumentMark (cur : Cursor) : Bool :=
  cur.column == 0 &&
    match cur.unread with
    | '-' :: '-' :: '-' :: rest => isGap rest
    | '.' :: '.' :: '.' :: rest => isGap rest
    | _ => false

end Cursor

end Coalition.Yaml
