import Coalition.Region

-- A value is coded by its place in the domain, in binary with the least significant bit first.

set_option autoImplicit false

namespace Coalition

inductive VariableKind where
  | state
  | input
deriving DecidableEq, Repr

structure Variable where
  name : String
  kind : VariableKind
  domain : List String
  bits : List Nat
  nextBits : List Nat
deriving DecidableEq, Repr

/-- The number of bits for a domain of `n` values, at least one. -/
def width (n : Nat) : Nat := if n ≤ 2 then 1 else (n - 1).log2 + 1

namespace Variable

def isBoolean (v : Variable) : Bool := v.domain == ["false", "true"]

def index? (v : Variable) (value : String) : Option Nat := v.domain.findIdx? (· == value)

def code (bits : List Nat) (index : Nat) : Region :=
  Region.cell (bits.zipIdx.map fun (bit, i) => (bit, index.testBit i))

def bitsAt (v : Variable) (next : Bool) : List Nat := if next then v.nextBits else v.bits

/-- The valuations where the variable has the value at the given place. -/
def valueRegion (v : Variable) (next : Bool) (index : Nat) : Region := code (v.bitsAt next) index

/-- The valuations where the variable has some value of its domain. -/
def mask (v : Variable) (next : Bool) : Region :=
  Region.unionAll ((List.range v.domain.length).map (v.valueRegion next))

def unchanged (v : Variable) : Region :=
  Region.interAll ((v.bits.zip v.nextBits).map fun (bit, next) =>
    (Region.test bit true).iff (Region.test next true))

end Variable

end Coalition
