import Coalition.Text.Quoted

-- Reading machine integers of 64 bits, with the two reasons why a text is none, and truth values.

set_option autoImplicit false

namespace Coalition.Text

inductive NumberFault where
  | badSyntax
  | outOfRange

structure NumberError where
  reader : String
  text : String
  fault : NumberFault

def NumberFault.message : NumberFault → String
  | .badSyntax => "invalid syntax"
  | .outOfRange => "value out of range"

def NumberError.message (e : NumberError) : String :=
  "strconv." ++ e.reader ++ ": parsing " ++ quoted e.text ++ ": " ++ e.fault.message

def maxInteger : Int := 0x7fffffffffffffff

def minInteger : Int := -0x8000000000000000

def digitValue? (c : Char) : Option Nat :=
  if c.isDigit then some (c.toNat - 48)
  else if 'a' ≤ c ∧ c ≤ 'z' then some (c.toNat - 87)
  else if 'A' ≤ c ∧ c ≤ 'Z' then some (c.toNat - 55)
  else none

/-- The value of a run of digits. A value past 64 bits is reported before any later bad digit. -/
def readDigits (base : Nat) (separators : Bool) : (sofar : Nat) → List Char → Except NumberFault Nat
  | sofar, [] => .ok sofar
  | sofar, c :: rest =>
      if separators && c == '_' then readDigits base separators sofar rest
      else
        match digitValue? c with
        | none => .error .badSyntax
        | some d =>
            if base ≤ d then .error .badSyntax
            else
              let next := sofar * base + d
              if 0x10000000000000000 ≤ next then .error .outOfRange else readDigits base separators next rest

/-- Underscores may only stand between digits or after a base mark. -/
def separatorsWellPlaced (cs : List Char) : Bool :=
  let (last, hex, body) : Char × Bool × List Char :=
    match cs with
    | '0' :: m :: rest =>
        let m := m.toLower
        if m == 'b' || m == 'o' || m == 'x' then ('0', m == 'x', rest) else ('^', false, cs)
    | _ => ('^', false, cs)
  go hex last body
where
  go (hex : Bool) : Char → List Char → Bool
    | last, [] => last != '_'
    | last, c :: rest =>
        if c.isDigit || (hex && 'a' ≤ c.toLower && c.toLower ≤ 'f') then go hex '0' rest
        else if c == '_' then last == '0' && go hex '_' rest
        else last != '_' && go hex '!' rest

/-- An unsigned number; base 0 lets a mark such as `0x` choose the base. -/
def readUnsigned (base : Nat) (cs : List Char) : Except NumberFault Nat :=
  if cs.isEmpty then .error .badSyntax
  else if base != 0 then readDigits base false 0 cs
  else
    let (base, body) : Nat × List Char :=
      match cs with
      | '0' :: m :: d :: rest =>
          if m.toLower == 'b' then (2, d :: rest)
          else if m.toLower == 'o' then (8, d :: rest)
          else if m.toLower == 'x' then (16, d :: rest)
          else (8, m :: d :: rest)
      | '0' :: rest => (8, rest)
      | _ => (10, cs)
    match readDigits base true 0 body with
    | .error fault => .error fault
    | .ok n => if cs.contains '_' && !separatorsWellPlaced cs then .error .badSyntax else .ok n

def readSigned (base : Nat) (s : String) : Except NumberFault Int :=
  let (negative, body) : Bool × List Char :=
    match s.toList with
    | '+' :: rest => (false, rest)
    | '-' :: rest => (true, rest)
    | cs => (false, cs)
  match readUnsigned base body with
  | .error fault => .error fault
  | .ok n =>
      let value : Int := if negative then -n else n
      if value < minInteger || maxInteger < value then .error .outOfRange else .ok value

def readDecimal (s : String) : Except NumberError Int :=
  (readSigned 10 s).mapError fun fault => ⟨"Atoi", s, fault⟩

-- An integer in the base its text shows, with an optional sign.
def readInteger (s : String) : Except NumberError Int :=
  (readSigned 0 s).mapError fun fault => ⟨"ParseInt", s, fault⟩

-- A truth value: a digit, a letter or a word, the last two in one case or with a capital.
def readTruth (s : String) : Except NumberError Bool :=
  if ["1", "t", "T", "true", "TRUE", "True"].contains s then .ok true
  else if ["0", "f", "F", "false", "FALSE", "False"].contains s then .ok false
  else .error ⟨"ParseBool", s, .badSyntax⟩

end Coalition.Text
