import Coalition.Number.Binary64
import Coalition.Text.Case
import Coalition.Text.Integer

-- Reading floating-point numbers: decimal or hexadecimal digits with a point and an exponent, an infinity, or no number at all.

set_option autoImplicit false

namespace Coalition.Binary64

open Coalition.Text

def isInfinity (cs : List Char) : Bool :=
  let name := lowerAscii cs
  name == "inf" || name == "infinity"
where
  lowerAscii (cs : List Char) : String := String.ofList (cs.map Char.toLower)

-- Digits with at most one point: their value, how many stand after the point, and the rest.
structure Digits where
  value : Nat := 0
  count : Nat := 0
  decimals : Option Nat := none

def readMantissa (base : Nat) : Digits → List Char → Digits × List Char
  | d, [] => (d, [])
  | d, c :: rest =>
      if c == '_' then readMantissa base d rest
      else if c == '.' then
        if d.decimals.isSome then (d, c :: rest) else readMantissa base { d with decimals := some 0 } rest
      else
        match digitValue? c with
        | none => (d, c :: rest)
        | some n =>
            if base ≤ n then (d, c :: rest)
            else
              readMantissa base ⟨d.value * base + n, d.count + 1, d.decimals.map (· + 1)⟩ rest

-- The digits of an exponent; past five digits its size no longer matters.
def readExponentDigits : Nat → List Char → Nat × List Char
  | n, [] => (n, [])
  | n, c :: rest =>
      if c == '_' then readExponentDigits n rest
      else if c.isDigit then
        readExponentDigits (if n < 10000 then n * 10 + (c.toNat - 48) else n) rest
      else (n, c :: rest)

def readExponent (cs : List Char) : Option (Int × List Char) :=
  let (negative, cs) : Bool × List Char :=
    match cs with
    | '+' :: rest => (false, rest)
    | '-' :: rest => (true, rest)
    | _ => (false, cs)
  match cs with
  | c :: _ =>
      if c.isDigit then
        let (n, rest) := readExponentDigits 0 cs
        some (if negative then -Int.ofNat n else n, rest)
      else none
  | [] => none

def readMagnitude (negative : Bool) (cs : List Char) : Option Binary64 :=
  let (hex, body) : Bool × List Char :=
    match cs with
    | '0' :: m :: d :: rest => if m.toLower == 'x' then (true, d :: rest) else (false, cs)
    | _ => (false, cs)
  let (digits, rest) := readMantissa (if hex then 16 else 10) {} body
  let decimals : Int := digits.decimals.getD 0
  if digits.count == 0 then none
  else
    let exponent : Option (Int × List Char) :=
      match rest with
      | m :: after =>
          if m.toLower == (if hex then 'p' else 'e') then readExponent after
          else if hex then none else some (0, rest)
      | [] => if hex then none else some (0, [])
    match exponent with
    | some (e, []) =>
        if cs.contains '_' && !separatorsWellPlaced cs then none
        else if hex then
          let (num, den) := ratio digits.value (e - 4 * decimals)
          some (ofRatio negative num den)
        else some (ofDecimal negative digits.value (e - decimals))
    | _ => none

def read (s : String) : Except NumberError Binary64 :=
  let fail (fault : NumberFault) : Except NumberError Binary64 := .error ⟨"ParseFloat", s, fault⟩
  let (signed, negative, body) : Bool × Bool × List Char :=
    match s.toList with
    | '+' :: rest => (true, false, rest)
    | '-' :: rest => (true, true, rest)
    | cs => (false, false, cs)
  if isInfinity body then .ok (.infinite negative)
  else if !signed && String.ofList (body.map Char.toLower) == "nan" then .ok .nan
  else
    match readMagnitude negative body with
    | none => fail .badSyntax
    | some (.infinite _) => fail .outOfRange
    | some x => .ok x

end Coalition.Binary64
