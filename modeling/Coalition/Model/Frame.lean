import Coalition.Error
import Coalition.Model.Variable

-- Frames: the variables of a system with their bits, and the regions of well-formed states, inputs and next states.

set_option autoImplicit false

namespace Coalition

def maskAll (vars : List Variable) (next : Bool) : Region :=
  Region.interAll (vars.map (·.mask next))

structure Frame where
  space : Space
  stateVars : List Variable
  inputVars : List Variable
  statesMask : Region
  nextMask : Region
  inputsMask : Region
  identity : Region
  states_mask_eq : statesMask = maskAll stateVars false
  next_mask_eq : nextMask = maskAll stateVars true
  inputs_mask_eq : inputsMask = maskAll inputVars false
  identity_eq : identity = Region.interAll (stateVars.map (·.unchanged))

namespace Frame

def ofVariables (space : Space) (stateVars inputVars : List Variable) : Frame where
  space := space
  stateVars := stateVars
  inputVars := inputVars
  statesMask := maskAll stateVars false
  nextMask := maskAll stateVars true
  inputsMask := maskAll inputVars false
  identity := Region.interAll (stateVars.map (·.unchanged))
  states_mask_eq := rfl
  next_mask_eq := rfl
  inputs_mask_eq := rfl
  identity_eq := rfl

def vars (f : Frame) : List Variable := f.stateVars ++ f.inputVars

def stateBits (f : Frame) : List Nat := f.stateVars.flatMap (·.bits)

def nextBits (f : Frame) : List Nat := f.stateVars.flatMap (·.nextBits)

def inputBits (f : Frame) : List Nat := f.inputVars.flatMap (·.bits)

def movesMask (f : Frame) : Region := f.statesMask.inter f.inputsMask

def find? (f : Frame) (name : String) : Option Variable :=
  f.vars.find? (·.name == name)

def statesOf (f : Frame) (s : Region) : Region := (s.hide f.inputBits).inter f.statesMask

def statesOutside (f : Frame) (s : Region) : Region := f.statesMask.diff s

def movesOf (f : Frame) (s : Region) : Region := (s.inter f.statesMask).inter f.inputsMask

def countStates (f : Frame) (s : Region) : Nat := f.space.count (f.statesOf s) f.stateBits

def pickState (f : Frame) (s : Region) : Option Region := (f.statesOf s).pick f.stateBits

def pickInputs (f : Frame) (s : Region) : Option Region :=
  ((s.hide f.stateBits).inter f.inputsMask).pick f.inputBits

def pickMove (f : Frame) (s : Region) : Option Region :=
  (f.movesOf s).pick (f.stateBits ++ f.inputBits)

def listStates (f : Frame) (s : Region) : Except Space.Fault (List Region) :=
  Space.listing (f.statesOf s) f.stateBits

def listInputs (f : Frame) (s : Region) : Except Space.Fault (List Region) :=
  Space.listing ((s.hide f.stateBits).inter f.inputsMask) f.inputBits

def listMoves (f : Frame) (s : Region) : Except Space.Fault (List Region) :=
  Space.listing (f.movesOf s) (f.stateBits ++ f.inputBits)

def valueIn (s : Region) (v : Variable) : Option String :=
  (v.domain.zipIdx.find? fun (_, i) => s.meets (v.valueRegion false i)).map (·.1)

def values (f : Frame) (s : Region) : List (String × String) :=
  f.vars.filterMap fun v => (valueIn s v).map fun value => (v.name, value)

def describeVars (vars : List Variable) (s : Region) : String :=
  " ".intercalate (vars.filterMap fun v => (valueIn s v).map fun value => v.name ++ "=" ++ value)

/-- One state of a region, written as pairs of a variable and its value. -/
def describe (f : Frame) (s : Region) : String := describeVars f.stateVars s

def describeInputs (f : Frame) (s : Region) : String := describeVars f.inputVars s

/-- Extra state variables over the reserved bits; every call lays them over the same ones. -/
def strategyVars (f : Frame) (names : List String) (sizes : List Nat) :
    Except Error (List Variable) :=
  match f.space.scratch (sizes.foldl (fun total n => total + 2 * width n) 0) with
  | .ok first => .ok (lay first (names.zip sizes))
  | .error fault => .error (.inside s!"{names.length} strategy variables" (.space fault))
where
  lay (next : Nat) : List (String × Nat) → List Variable
    | [] => []
    | (name, size) :: rest =>
        let w := width size
        { name
          kind := .state
          domain := (List.range size).map fun k => s!"{k}"
          bits := (List.range w).map fun b => next + 2 * b
          nextBits := (List.range w).map fun b => next + 2 * b + 1 } :: lay (next + 2 * w) rest

end Frame

end Coalition
