import Coalition.Number.Binary64

-- The shortest decimal text of a floating-point number: the fewest digits that are read back as the same number, and of those the
-- nearest.

set_option autoImplicit false

namespace Coalition.Binary64

structure Decimal where
  digits : Nat
  exponent : Int

-- Cross multiplication: `a` times a power of two against `c` times a power of ten.
def crossed (a : Nat) (two : Int) (c : Nat) (ten : Int) : Nat × Nat :=
  (a * Nat.pow 2 two.toNat * Nat.pow 10 (-ten).toNat,
    c * Nat.pow 10 ten.toNat * Nat.pow 2 (-two).toNat)

-- The largest power of ten that is at most `mantissa * 2 ^ exponent`.
def tenPower (mantissa : Nat) (exponent : Int) : Int :=
  let reaches (e : Int) : Bool :=
    let (value, power) := crossed mantissa exponent 1 e
    power ≤ value
  let guess := ((Int.ofNat mantissa.log2 + exponent) * 30103).fdiv 100000
  if reaches (guess + 1) then guess + 1 else if reaches guess then guess else guess - 1

-- The best of the two neighbours with `count` digits, if one is read back as the number. Both
-- bounds of the interval count as inside when the mantissa is even.
def withDigits (mantissa : Nat) (exponent : Int) (top : Int) (count : Nat) : Option Decimal :=
  let ten := top - count + 1
  let two := exponent - 2
  let narrow := mantissa == smallestNormal && minExponent < exponent
  let low := 4 * mantissa - (if narrow then 1 else 2)
  let high := 4 * mantissa + 2
  let inside (c : Nat) : Bool :=
    let (lowValue, value) := crossed low two c ten
    let (highValue, value') := crossed high two c ten
    if mantissa % 2 == 0 then lowValue ≤ value && value' ≤ highValue
    else lowValue < value && value' < highValue
  let (num, den) := crossed (4 * mantissa) two 1 ten
  let floor := num / den
  match inside floor, inside (floor + 1) with
  | true, true => some ⟨roundRatio num den, ten⟩
  | true, false => some ⟨floor, ten⟩
  | false, true => some ⟨floor + 1, ten⟩
  | false, false => none

def shortestFrom (mantissa : Nat) (exponent top : Int) : (fuel count : Nat) → Decimal
  | 0, count => ⟨mantissa, exponent + count⟩
  | fuel + 1, count =>
      match withDigits mantissa exponent top count with
      | some d => d
      | none => shortestFrom mantissa exponent top fuel (count + 1)

def shortest (mantissa : Nat) (exponent : Int) : Decimal :=
  shortestFrom mantissa exponent (tenPower mantissa exponent) 18 1

def trimZeros : (fuel : Nat) → Decimal → Decimal
  | 0, d => d
  | fuel + 1, d =>
      if d.digits != 0 && d.digits % 10 == 0 then trimZeros fuel ⟨d.digits / 10, d.exponent + 1⟩ else d

def isPositional (exponent : Int) : Bool := -4 ≤ exponent && exponent < 6

def exponentText (exponent : Int) : String :=
  let digits := s!"{exponent.natAbs}"
  let digits := if digits.length < 2 then "0" ++ digits else digits
  (if exponent < 0 then "e-" else "e+") ++ digits

def magnitudeText (d : Decimal) : String :=
  let d := trimZeros 18 d
  let digits := s!"{d.digits}".toList
  let top := d.exponent + digits.length - 1
  if !isPositional top then
    let fraction := digits.drop 1
    String.ofList (digits.take 1 ++ (if fraction.isEmpty then [] else '.' :: fraction)) ++
      exponentText top
  else if top < 0 then
    "0." ++ String.ofList (List.replicate (-top - 1).toNat '0' ++ digits)
  else
    let whole := top.toNat + 1
    let shown := digits.take whole ++ List.replicate (whole - digits.length) '0'
    let fraction := digits.drop whole
    String.ofList (shown ++ if fraction.isEmpty then [] else '.' :: fraction)

def text : Binary64 → String
  | .nan => "NaN"
  | .infinite negative => if negative then "-Inf" else "+Inf"
  | .finite negative mantissa exponent =>
      (if negative then "-" else "") ++
        if mantissa == 0 then "0" else magnitudeText (shortest mantissa exponent)

end Coalition.Binary64
