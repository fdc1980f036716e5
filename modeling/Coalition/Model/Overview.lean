import Coalition.Model.Team

-- Texts about a system: what it is made of, and where a free choice of actions gets stuck.

set_option autoImplicit false

namespace Coalition

def padded (width : Nat) (text : String) : String :=
  text ++ String.ofList (List.replicate (width - text.length) ' ')

def listed (texts : List String) : String := ", ".intercalate texts

def Variable.overview (v : Variable) : String :=
  let kind := if v.kind = .state then "state" else "input"
  "  " ++ padded 24 v.name ++ " " ++ padded 5 kind ++ " \x7b" ++ listed v.domain ++ "\x7d"

def Agent.overview (a : Agent) : String :=
  let names (vars : List Variable) : String := "[" ++ listed (vars.map (·.name)) ++ "]"
  "  " ++ a.name ++ " observes " ++ names a.observed ++ " controls " ++ names a.actions

def Group.overview (g : Group) : String := "  " ++ g.name ++ " = [" ++ listed g.members ++ "]"

namespace System

-- The variables, agents and groups of a system, and how many states it can reach.
def overview (sys : System) : List String :=
  let groups := if sys.groups.isEmpty then [] else "" :: "Groups:" :: sys.groups.map (·.overview)
  let reachable := sys.countStates sys.reachable
  ["Model: " ++ sys.name, "", "Variables:"] ++ sys.vars.map (·.overview) ++
    ["", "Agents:"] ++ sys.agents.map (·.overview) ++ groups ++
    ["", s!"Reachable states: {reachable}"]

-- The first moves of a list, and how many more there are; a limit of 0 or less is none.
def moveLines (sys : System) (limit : Int) (moves : List Region) : List String :=
  let line (move : Region) : String :=
    "  " ++ sys.describe move ++ " / " ++ sys.describeInputs move
  let shown := if limit ≤ 0 then moves else moves.take limit.toNat
  let more := moves.length - shown.length
  shown.map line ++ if more = 0 then [] else [s!"  ... {more} more"]

-- Whether a system is free of blocked choices, and which it has.
def freeChoiceReport (sys : System) (limit : Int) : Except Error (List String) := do
  let (blocked, _) ← sys.blockedChoices {}
  if blocked.isEmpty then return [sys.name ++ " is a free-choice system"]
  let moves ← (sys.listMoves blocked).mapError .space
  return (sys.name ++ s!" is not a free-choice system; {moves.length} moves have no transition:") ::
    sys.moveLines limit moves

end System

end Coalition
