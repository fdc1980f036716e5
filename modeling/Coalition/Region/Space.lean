import Coalition.Region.Pick
import Coalition.Region.Fixpoint

-- The variables of a collection of regions: the declared ones, then a reserve that encodings may use.

set_option autoImplicit false

namespace Coalition

structure Space where
  declared : Nat
  reserved : Nat
deriving Repr

namespace Space

inductive Fault where
  | tooManyVariables (count : Nat)
  | unknownVariable (var : Int) (negated : Bool)
  | badIndex
  | notEnoughReserved (requested reserved : Nat)
  | emptyPick
  | noRoom

-- The text of a fault; an index that cannot be used at all has none, nor has a listing that is too long.
def Fault.message? : Fault → Option String
  | .tooManyVariables count => some s!"bdd: init: bad number of variable ({count})"
  | .unknownVariable var negated =>
      let test := if negated then "nithvar" else "ithvar"
      some s!"bdd: Unknown variable used ({var}) in call to {test}"
  | .badIndex => none
  | .notEnoughReserved requested reserved =>
      some s!"bdd: not enough reserved variables: {requested} requested, {reserved} reserved"
  | .emptyPick => some "bdd: pick on empty set"
  | .noRoom => none

def size (space : Space) : Nat := space.declared + space.reserved

def maxVariables : Nat := 2097151

def create (declared reserved : Int) : Except Fault Space :=
  let space : Space := ⟨max 1 declared.toNat, reserved.toNat⟩
  if maxVariables < space.size then .error (.tooManyVariables space.size) else .ok space

def scratch (space : Space) (n : Nat) : Except Fault Nat :=
  if space.reserved < n then .error (.notEnoughReserved n space.reserved) else .ok space.declared

/-- The number of valuations of `vars` in the projection on them. A variable named twice counts
twice. -/
def count (space : Space) (s : Region) (vars : List Nat) : Nat :=
  (s.keep vars).diagram.count space.size >>> (space.size - vars.length)

def index? (space : Space) (var : Int) : Option Nat :=
  if 0 ≤ var ∧ var.toNat < space.size then some var.toNat else none

def test (space : Space) (var : Int) (value : Bool) : Except Fault Region :=
  match space.index? var with
  | some v => .ok (Region.test v value)
  | none => .error (.unknownVariable var !value)

def indices (space : Space) (vars : List Int) : Except Fault (List Nat) :=
  vars.mapM fun v => (space.index? v).elim (.error .badIndex) .ok

def bit (n : Int) (i : Nat) : Bool := i < 64 && (n % 0x10000000000000000).toNat.testBit i

-- The region where each variable has the bit of `n` at its place in the list.
def literal (space : Space) (vars : List Int) (n : Int) : Except Fault Region := do
  let vars ← space.indices vars
  return Region.cell (vars.zipIdx.map fun (v, i) => (v, bit n i))

/-- The least member of a region over variables that may not all exist. -/
def pick (space : Space) (s : Region) (vars : List Int) : Except Fault Region :=
  if s.isEmpty then .error .emptyPick
  else do
    let path := s.diagram.leastPath
    let values ← vars.mapM fun v =>
      match space.index? v with
      | some v => .ok (v, Region.valueOn path v)
      | none => .error (if v < 0 then .badIndex else .unknownVariable v true)
    return Region.cell values

def maxEntries : Int := 0x100000000000

/-- The number of valuations of `n` variables in a signed word of 64 bits. -/
def valuations (n : Nat) : Int := Int.bmod (Int.ofNat (1 <<< n)) 0x10000000000000000

def openOn (vars : List Nat) (path : Path) : List Nat := vars.filter fun v => (path.lookup v).isNone

/-- The cells over `vars` that agree with a path, as many as their number in a word tells. -/
def expand (vars : List Nat) (path : Path) : Except Fault (List Region) :=
  let cells := valuations (openOn vars path).length
  if cells < 0 ∨ maxEntries < cells then .error .noRoom
  -- nothing is left of the number in the word from 64 open variables on
  else if cells = 0 then .ok []
  else .ok (Region.expand vars path)

/-- The members of the projection on `vars`, each as a cell, path after path. -/
def listing (s : Region) (vars : List Nat) : Except Fault (List Region) := do
  let parts ← (s.keep vars).diagram.paths.mapM (expand vars)
  return parts.flatten

def pickAll (space : Space) (s : Region) (vars : List Int) : Except Fault (List Region) :=
  if s.isEmpty then .ok [] else do listing s (← space.indices vars)

def countOver (space : Space) (s : Region) (vars : List Int) : Nat :=
  (s.keep (vars.filterMap space.index?)).diagram.count space.size >>> (space.size - vars.length)

end Space

end Coalition
