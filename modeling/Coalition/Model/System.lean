import Coalition.Error
import Coalition.Model.Expression.Parser
import Coalition.Model.Frame

-- The transition relation relates a state and an input to the next state; images and preimages rename between the bits of the current and
-- the next state.

set_option autoImplicit false

namespace Coalition

/-- A relation between current and next values, also of extra variables. -/
structure Relation where
  region : Region
  stateBits : List Nat
  nextBits : List Nat
  inputBits : List Nat
  identity : Region

namespace Relation

def pre (r : Relation) (target : Region) : Region :=
  let moved := ((target.hide r.inputBits).inter r.identity).hide r.stateBits
  (r.region.inter moved).hide (r.nextBits ++ r.inputBits)

def restrict (r : Relation) (moves : Region) : Relation := { r with region := r.region.inter moves }

end Relation

/-- A relation over the state variables of a frame and some extra ones. -/
def Frame.relation (f : Frame) (region : Region) (extra : List Variable) : Relation where
  region := region
  stateBits := f.stateBits ++ extra.flatMap (·.bits)
  nextBits := f.nextBits ++ extra.flatMap (·.nextBits)
  inputBits := f.inputBits
  identity := extra.foldl (fun r v => r.inter v.unchanged) f.identity

structure Agent where
  name : String
  observed : List Variable
  actions : List Variable
  protocol : Region

structure Group where
  name : String
  members : List String

structure Dynamics extends Frame where
  init : Region
  trans : Region

namespace Dynamics

def relation (g : Dynamics) : Relation := g.toFrame.relation g.trans []

def pre (g : Dynamics) (target : Region) : Region := g.relation.pre target

-- The states with a successor in `target` through a move of `moves`.
def preSub (g : Dynamics) (target moves : Region) : Region := (g.relation.restrict moves).pre target

def preInputs (g : Dynamics) (target moves : Region) : Region :=
  let moved := ((target.hide g.inputBits).inter g.identity).hide g.stateBits
  ((g.trans.inter moves).inter moved).hide g.nextBits

/-- The successors of `source` through moves of `moves`; inputs in `source` restrict the moves. -/
def postSub (g : Dynamics) (source moves : Region) : Region :=
  let image := ((g.trans.inter moves).inter source).hide (g.stateBits ++ g.inputBits)
  (image.inter g.identity).hide g.nextBits

def post (g : Dynamics) (source : Region) : Region := g.postSub source .univ

/-- The states reached from those of `source`, themselves included. -/
def reachFrom (g : Dynamics) (source : Region) : Region :=
  let start := g.statesOf source
  (Region.fixpoint g.space.size .empty fun z => pure (start.union (g.post z))).value

end Dynamics

structure System extends Dynamics where
  name : String
  agents : List Agent
  groups : List Group
  specs : List String
  fairness : List Region
  names : Expression.Names
  defines : List (String × Region)
  reachable : Region
  reachable_eq : reachable = toDynamics.reachFrom toDynamics.init

namespace System

def compile (names : Expression.Names) (defines : List (String × Region)) (scope : Expression.Scope)
    (text : String) : Except Error Region :=
  match Expression.parse names scope text with
  | .ok expression => .ok (expression.region defines)
  | .error problem => .error (.expression (problem.subject text) problem)

def atom (sys : System) (text : String) : Except Error Region := do
  return (← compile sys.names sys.defines .state text).inter sys.statesMask

def summary (sys : System) : String :=
  let states := sys.stateVars.length
  let inputs := sys.inputVars.length
  let agents := sys.agents.length
  sys.name ++ s!" ({states} state variables, {inputs} inputs, {agents} agents)"

end System

-- The region where a variable has a value, on current or next bits.
def Variable.assigned (v : Variable) (value : String) (next : Bool) : Except Error Region :=
  match v.index? value with
  | none => .error (.expression v.name (.notInDomain v.name value v.domain))
  | some i =>
      if next && v.kind = .input then .error (.nextOfInput v.name)
      else .ok (v.valueRegion next i)

end Coalition
