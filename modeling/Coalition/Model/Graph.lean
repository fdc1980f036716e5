import Coalition.Model.System

-- The explicit graph of reachable states, in breadth-first order from the initial ones.

set_option autoImplicit false

namespace Coalition

structure Graph where
  /-- The descriptions of the states, in the order they were found. -/
  labels : List String := []
  initial : List Nat := []
  successors : List (List Nat) := []
  truncated : Bool := false

namespace Graph

structure Found where
  labels : List String := []
  states : List Region := []
  truncated : Bool := false

/-- The place of a state, which is added if it is new and the limit allows it. -/
def visit (frame : Frame) (limit : Nat) (found : Found) (state : Region) : Option Nat × Found :=
  let label := frame.describe state
  match found.labels.findIdx? (· == label) with
  | some i => (some i, found)
  | none =>
      let next := found.labels.length
      if 0 < limit && limit ≤ next then (none, { found with truncated := true })
      else
        (some next,
          { found with labels := found.labels ++ [label], states := found.states ++ [state] })

/-- The places of a list of states, without those the limit leaves out. -/
def visitAll (frame : Frame) (limit : Nat) (found : Found) : List Region → List Nat × Found
  | [] => ([], found)
  | state :: rest =>
      let (place, found) := visit frame limit found state
      let (places, found) := visitAll frame limit found rest
      (place.toList ++ places, found)

def explore (sys : Dynamics) (limit : Nat) : (fuel : Nat) → (next : Nat) → Found →
    Except Space.Fault (List (List Nat) × Found)
  | 0, _, found => .ok ([], found)
  | fuel + 1, next, found =>
      match found.states[next]? with
      | none => .ok ([], found)
      | some state => do
          let (places, found) := visitAll sys.toFrame limit found (← sys.listStates (sys.post state))
          let (later, found) ← explore sys limit fuel (next + 1) found
          return (places :: later, found)

/-- The graph of a system with at most `limit` states, or with all of them if it is 0. Distinct
states are found at most as often as there are reachable ones. -/
def ofSystem (sys : System) (limit : Nat) : Except Space.Fault Graph := do
  let (initial, found) := visitAll sys.toFrame limit {} (← sys.listStates sys.init)
  let (successors, found) ←
    explore sys.toDynamics limit (sys.countStates sys.reachable + 1) 0 found
  return { labels := found.labels, initial, successors, truncated := found.truncated }

def stateName (i : Nat) : String := s!"s{i}"

def edges (g : Graph) : List (Nat × Nat) :=
  g.successors.zipIdx.flatMap fun (targets, source) => targets.map fun target => (source, target)

def quotedName (i : Nat) : String := Text.quoted (stateName i)

def dot (g : Graph) (name : String) : String :=
  let lines := ["digraph " ++ Text.quoted name ++ " \x7b", "  rankdir=LR;", "  node [shape=box];", "",
      "  start [shape=point];"] ++
    (g.initial.map fun i => "  start -> " ++ quotedName i ++ ";") ++ [""] ++
    (g.labels.zipIdx.map fun (label, i) =>
      "  " ++ quotedName i ++ " [label=\"" ++ label.replace " " "\\n" ++ "\"];") ++ [""] ++
    (g.edges.map fun (source, target) =>
      "  " ++ quotedName source ++ " -> " ++ quotedName target ++ ";") ++ ["\x7d"]
  String.join (lines.map (· ++ "\n"))

def mermaid (g : Graph) : String :=
  let distinct := g.successors.zipIdx.flatMap fun (targets, source) =>
    targets.eraseDups.map fun target => (source, target)
  let lines := ["stateDiagram-v2"] ++
    (g.initial.map fun i => "  [*] --> " ++ stateName i) ++ [""] ++
    (distinct.map fun (source, target) => "  " ++ stateName source ++ " --> " ++ stateName target) ++
    [""] ++ (g.labels.zipIdx.map fun (label, i) => "  " ++ stateName i ++ ": " ++ label)
  String.join (lines.map (· ++ "\n"))

end Graph

end Coalition
