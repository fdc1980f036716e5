-- Floating-point numbers of 64 bits as exact values.

set_option autoImplicit false

namespace Coalition

inductive Binary64 where
  | nan
  | infinite (negative : Bool)
  | finite (negative : Bool) (mantissa : Nat) (exponent : Int)
deriving DecidableEq, Repr

/-- The nearest integer to a ratio; a half goes to the even neighbour. -/
def roundRatio (num den : Nat) : Nat :=
  let quotient := num / den
  let rest := 2 * (num % den)
  if den < rest || (rest == den && quotient % 2 == 1) then quotient + 1 else quotient

def scaleRatio (num den : Nat) (exponent : Int) : Nat × Nat :=
  if 0 ≤ exponent then (num, den * Nat.pow 2 exponent.toNat)
  else (num * Nat.pow 2 (-exponent).toNat, den)

namespace Binary64

def minExponent : Int := -1074

def maxExponent : Int := 971

def smallestNormal : Nat := 0x10000000000000

def zero : Binary64 := .finite false 0 minExponent

/-- The number nearest to a ratio; one that is too large is infinite. -/
def ofRatio (negative : Bool) (num den : Nat) : Binary64 :=
  if num == 0 then .finite negative 0 minExponent
  else
    let guess := max minExponent (Int.ofNat num.log2 - Int.ofNat den.log2 - 53)
    let (n, d) := scaleRatio num den guess
    let exponent := if 2 * smallestNormal ≤ n / d then guess + 1 else guess
    let (n, d) := scaleRatio num den exponent
    let mantissa := roundRatio n d
    let (mantissa, exponent) :=
      if mantissa == 2 * smallestNormal then (smallestNormal, exponent + 1) else (mantissa, exponent)
    if maxExponent < exponent then .infinite negative else .finite negative mantissa exponent

def ofDecimal (negative : Bool) (digits : Nat) (exponent : Int) : Binary64 :=
  if 0 ≤ exponent then ofRatio negative (digits * Nat.pow 10 exponent.toNat) 1
  else ofRatio negative digits (Nat.pow 10 (-exponent).toNat)

def ratio (mantissa : Nat) (exponent : Int) : Nat × Nat := scaleRatio mantissa 1 (-exponent)

def isNegative : Binary64 → Bool
  | .nan => false
  | .infinite negative => negative
  | .finite negative mantissa _ => negative && mantissa != 0

def atLeastOne : Binary64 → Bool
  | .nan => false
  | .infinite negative => !negative
  | .finite negative mantissa exponent =>
      let (num, den) := ratio mantissa exponent
      !negative && den ≤ num

def roundBits (precision n : Nat) : Nat :=
  let bits := if n == 0 then 0 else n.log2 + 1
  if bits ≤ precision then n
  else
    let unit := Nat.pow 2 (bits - precision)
    roundRatio n unit * unit

/-- Whether `count` is at most `size` times the number. The product is rounded to 64 bits, or to as
many as `size` has; there is no answer if it is no number. -/
def allows (factor : Binary64) (count size : Nat) : Option Bool :=
  match factor with
  | .nan => none
  | .infinite negative => if size == 0 then none else some !negative
  | .finite negative mantissa exponent =>
      let bits := if size == 0 then 0 else size.log2 + 1
      let (num, den) := ratio (roundBits (max 64 bits) (size * mantissa)) exponent
      some (if negative then count == 0 && num == 0 else count * den ≤ num)

end Binary64

end Coalition
