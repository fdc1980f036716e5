import Coalition.Model.System

-- A name stands for an agent or for a group of names; a team is a list of agents of the system, with what they observe and the inputs
-- they control.

set_option autoImplicit false

namespace Coalition

structure Team where
  members : List Agent

def teamKey (names : List String) : String := ",".intercalate names

namespace Team

def names (t : Team) : List String := t.members.map (·.name)

def key (t : Team) : String := teamKey t.names

/-- The inputs the members control, in the order of the members. -/
def actions (t : Team) : List Variable := t.members.flatMap (·.actions)

def actionBits (t : Team) : List Nat := t.actions.flatMap (·.bits)

def insertNew (vars : List Variable) (v : Variable) : List Variable :=
  if vars.any (·.name == v.name) then vars else vars ++ [v]

/-- The variables some member observes, in the order of their bits. -/
def observed (t : Team) : List Variable :=
  ((t.members.flatMap (·.observed)).foldl insertNew []).mergeSort
    fun v w => v.bits.headD 0 ≤ w.bits.headD 0

def observedBits (t : Team) : List Nat := t.observed.flatMap (·.bits)

def singles (t : Team) : List Team := t.members.map fun a => ⟨[a]⟩

end Team

namespace System

variable (sys : System)

def agent? (name : String) : Option Agent := sys.agents.find? (·.name == name)

def group? (name : String) : Option Group := sys.groups.find? (·.name == name)

/-- The agents a name stands for. Groups nest at most as deep as there are groups. -/
def agentsOfName : (fuel : Nat) → String → Except Error (List String)
  | 0, name => .error (.unknownAgent name)
  | fuel + 1, name =>
      if (sys.agent? name).isSome then .ok [name]
      else
        match sys.group? name with
        | none => .error (.unknownAgent name)
        | some g => do return (← g.members.mapM (agentsOfName fuel)).flatten

def sortDistinct (texts : List String) : List String :=
  (texts.foldl (fun seen x => if seen.contains x then seen else x :: seen) []).mergeSort
    fun x y => x ≤ y

/-- The agents some names stand for, sorted and without repetition. -/
def agentsOf (names : List String) : Except Error (List String) := do
  let found ← names.mapM (sys.agentsOfName (sys.groups.length + 1))
  return sortDistinct found.flatten

def team (names : List String) : Except Error Team := do
  let members ← names.mapM fun name =>
    (sys.agent? name).elim (.error (.unknownAgent name)) .ok
  return ⟨members⟩

def teamOf (names : List String) : Except Error Team := do
  sys.team (← sys.agentsOf names)

def otherInputs (t : Team) : List Nat := sys.inputBits.filter fun b => !t.actionBits.contains b

/-- What a team cannot see: unobserved state variables and all inputs. -/
def unobserved (t : Team) : List Nat :=
  let seen := t.observed
  ((sys.stateVars.filter fun v => !seen.any (·.name == v.name)).flatMap (·.bits)) ++ sys.inputBits

/-- The states that the team, pooling its observations, cannot tell from some state of `states`. -/
def equivalents (t : Team) (states : Region) : Region :=
  ((states.inter sys.statesMask).hide (sys.unobserved t)).inter sys.statesMask

/-- The states at the end of a chain of states, reachable after the first, where some member cannot
tell each from the one before. -/
def commonEquivalents (t : Team) (states : Region) : Region :=
  let hidden := t.singles.map sys.unobserved
  (Region.fixpoint sys.space.size (sys.statesOf states) fun z =>
    pure (hidden.foldl (fun r bits => r.union ((z.hide bits).inter sys.reachable)) z)).value

/-- The pairs of a reachable state and an action of the team that belong to some transition. -/
def protocolOf (t : Team) : Region :=
  ((sys.trans.inter sys.reachable).hide (sys.nextBits ++ sys.otherInputs t)).inter sys.inputsMask

def equivalenceOf (t : Team) : Region :=
  t.observed.foldl (fun r v => r.inter v.unchanged) (sys.statesMask.inter sys.nextMask)

end System

/-- Protocols and equivalences that were asked for before, by the key of the names. -/
structure Recall where
  protocols : List (String × Region) := []
  relations : List (String × Region) := []

namespace Recall

def protocol (sys : System) (names : List String) (memory : Recall) :
    Except Error (Region × Recall) :=
  match memory.protocols.lookup (teamKey names) with
  | some region => .ok (region, memory)
  | none => do
      let region := sys.protocolOf (← sys.team names)
      return (region, { memory with protocols := (teamKey names, region) :: memory.protocols })

def equivalence (sys : System) (names : List String) (memory : Recall) :
    Except Error (Region × Recall) :=
  match memory.relations.lookup (teamKey names) with
  | some region => .ok (region, memory)
  | none => do
      let region := sys.equivalenceOf (← sys.team names)
      return (region, { memory with relations := (teamKey names, region) :: memory.relations })

end Recall

-- A move of the team wins when every completion of it by the other agents leads only into the target.
namespace System

variable (sys : System)

/-- The moves of `moves` within the protocol that force `target`. -/
def forcingMoves (t : Team) (protocol : Region) (target moves : Region) : Region :=
  let escape := sys.statesOutside (target.hide sys.inputBits)
  let bad := (sys.preInputs escape .univ).hide (sys.otherInputs t)
  (protocol.inter moves).diff bad

def forcingStates (t : Team) (protocol : Region) (target moves : Region) : Region :=
  (sys.forcingMoves t protocol target moves).hide sys.inputBits

/-- The states where every move of the team can be completed into a transition to `target`. -/
def unavoidableStates (t : Team) (protocol : Region) (target : Region) : Region :=
  let outside := sys.statesOutside (target.hide sys.inputBits)
  sys.statesOutside (sys.forcingStates t protocol outside .univ)

/-- The reachable moves where every agent follows its own protocol and yet no transition is
possible. -/
def blockedChoices (memory : Recall) : Except Error (Region × Recall) := do
  let names := sys.agents.map (·.name)
  let (joint, memory) ← names.foldlM
    (fun (joint, memory) name => do
      let (protocol, memory) ← memory.protocol sys [name]
      return (joint.inter protocol, memory))
    (sys.reachable.inter sys.inputsMask, memory)
  let owners ← sys.team names
  let enabled := (sys.trans.hide sys.nextBits).hide (sys.otherInputs owners)
  return (joint.diff enabled, memory)

end System

end Coalition
