import Coalition.Region

-- The least member compares variables in increasing order with false before true; the listing of all members follows the paths of the
-- diagram in that order.

set_option autoImplicit false

namespace Coalition

abbrev Path := List (Nat × Bool)

namespace Diagram

/-- The path that takes a low branch whenever it leads somewhere. -/
def leastPath : Diagram → Path
  | .leaf _ => []
  | .node var low high =>
      if low = .leaf false then (var, true) :: high.leastPath else (var, false) :: low.leastPath

def paths : Diagram → List Path
  | .leaf true => [[]]
  | .leaf false => []
  | .node var low high =>
      low.paths.map ((var, false) :: ·) ++ high.paths.map ((var, true) :: ·)

end Diagram

namespace Region

/-- The value a path gives to a variable; variables not on it are false. -/
def valueOn (path : Path) (var : Nat) : Bool := (path.lookup var).getD false

def pick (s : Region) (vars : List Nat) : Option Region :=
  if s.isEmpty then none
  else
    let path := s.diagram.leastPath
    some (cell (vars.map fun v => (v, valueOn path v)))

/-- All values of the listed variables; the first one changes fastest. -/
def assignments : List Nat → List Path
  | [] => [[]]
  | v :: rest => (assignments rest).flatMap fun values => [(v, false) :: values, (v, true) :: values]

def expand (vars : List Nat) (path : Path) : List Region :=
  let free := vars.filter fun v => (path.lookup v).isNone
  (assignments free).map fun values =>
    -- a repeated variable takes the value of its last occurrence
    let known := values.reverse ++ path
    cell (vars.map fun v => (v, valueOn known v))

end Region

end Coalition
