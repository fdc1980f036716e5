import Coalition.Text.Character

-- A line assigns a value to a name, with `=` or `:` between them and perhaps `export` in front; the other lines are blank or comments.

set_option autoImplicit false

namespace Coalition.Assignments

open Coalition.Text

abbrev Bindings := List (String × String)

def isInline (c : Char) : Bool :=
  c != '\n' && (isBlank c && c.toNat < 256)

def isLineEnd (c : Char) : Bool := c == '\n' || c == '\r'

def skip (comment : Bool) : List Char → List Char
  | [] => []
  | c :: rest =>
      if comment then skip (c != '\n') rest
      else if isBlank c then skip false rest
      else if c == '#' then skip true rest
      else c :: rest

-- The superscripts and fractions among the first 256 characters.
def isNumeral (n : Nat) : Bool := [0xB2, 0xB3, 0xB9, 0xBC, 0xBD, 0xBE].contains n

-- What a byte of a name stands for: a letter, a number, a point, an underscore or a blank.
def isNameByte (byte : UInt8) : Bool :=
  let c := Char.ofNat byte.toNat
  isInline c || isLetter c || c.isDigit || isNumeral byte.toNat || c == '_' || c == '.'

def isNameChar (c : Char) : Bool := (String.utf8EncodeChar c).all isNameByte

def dropExport (cs : List Char) : List Char :=
  let word := "export".toList
  let rest := cs.drop word.length
  if word.isPrefixOf cs && (rest.head?.map isInline).getD false then rest.dropWhile isInline else cs

def breakLines : List Char → List Char
  | '\\' :: 'n' :: rest => '\n' :: breakLines rest
  | '\\' :: 'r' :: rest => '\r' :: breakLines rest
  | '\\' :: c :: rest => '\\' :: c :: breakLines rest
  | c :: rest => c :: breakLines rest
  | [] => []

def dropEscapes : List Char → List Char
  | '\\' :: '$' :: rest => '\\' :: '$' :: dropEscapes rest
  | '\\' :: c :: rest => c :: dropEscapes rest
  | c :: rest => c :: dropEscapes rest
  | [] => []

def isReferenceChar (c : Char) : Bool := c.isUpper || c.isDigit || c == '_'

-- The name that is referred to after a `$`, and the length of the reference with its brackets.
def reference (cs : List Char) : List Char × Nat :=
  let one (c : Char) (cs : List Char) : Nat := if cs.head? == some c then 1 else 0
  let start := one '(' cs
  let start := start + one '{' (cs.drop start)
  let name := (cs.drop start).takeWhile isReferenceChar
  let stop := start + name.length
  (name, stop + one '}' (cs.drop stop))

-- References are replaced by the values of their names. The first `done` characters have been
-- dealt with. A backslash before a reference goes, and keeps it from being replaced.
def expand (bindings : Bindings) : (done : Nat) → List Char → List Char
  | _, [] => []
  | done + 1, _ :: rest => expand bindings done rest
  | 0, c :: rest =>
      if c == '\\' && rest.head? == some '$' then
        let kept := 1 + (reference (rest.drop 1)).2
        rest.take kept ++ expand bindings kept rest
      else if c == '$' then
        let (name, length) := reference rest
        let shown :=
          if name.isEmpty then c :: rest.take length
          else ((bindings.lookup (String.ofList name)).getD "").toList
        shown ++ expand bindings length rest
      else c :: expand bindings 0 rest

-- A line up to its comment, if it has one: the last `#` after a blank starts it.
def beforeComment? (afterBlank : Bool) : List Char → Option (List Char)
  | [] => none
  | c :: rest =>
      match beforeComment? (isInline c) rest with
      | some kept => some (c :: kept)
      | none => if afterBlank && c == '#' then some [] else none

def uncommented (line : List Char) : List Char := (beforeComment? false line).getD line

-- The text up to the closing mark, and what follows it. A mark after a backslash does not close.
def closed (mark : Char) : (last : Char) → List Char → Option (List Char × List Char)
  | _, [] => none
  | last, c :: rest =>
      if c == mark && last != '\\' then some ([], rest)
      else (closed mark c rest).map fun (text, after) => (c :: text, after)

def value (bindings : Bindings) (cs : List Char) : Option (List Char × List Char) :=
  match cs with
  | '"' :: rest =>
      (closed '"' '"' rest).map fun (text, after) =>
        (expand bindings 0 (dropEscapes (breakLines (trimList (· == '"') text))), after)
  | '\'' :: rest =>
      (closed '\'' '\'' rest).map fun (text, after) => (trimList (· == '\'') text, after)
  | _ =>
      let line := cs.takeWhile fun c => !isLineEnd c
      some (expand bindings 0 (trimList isInline (uncommented line)), cs.drop line.length)

-- Read the assignments from here on; there is one for every unit of fuel at most. A name without a
-- value can only be the end of the text.
def readFrom : (fuel : Nat) → Bindings → List Char → Option Bindings
  | 0, bindings, _ => some bindings
  | fuel + 1, bindings, cs =>
      match skip false cs with
      | [] => some bindings
      | start =>
          let start := dropExport start
          let name := start.takeWhile fun c => c != '=' && c != ':'
          if start.isEmpty || !name.all isNameChar then none
          else
            match start.drop name.length with
            | [] => some bindings
            | _ :: rest => do
                let (text, rest) ← value bindings (rest.dropWhile isInline)
                let name := String.ofList (name.reverse.dropWhile isBlank).reverse
                readFrom fuel ((name, String.ofList text) :: bindings) rest

def read (text : String) : Option Bindings :=
  let cs := (text.replace "\r\n" "\n").toList
  readFrom cs.length [] cs

end Coalition.Assignments
