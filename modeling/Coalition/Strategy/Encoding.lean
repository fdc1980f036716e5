import Coalition.Model.Team
import Coalition.Strategy.Goal

-- Every observation with several actions gets a variable that holds the action played there; a state together with values of these
-- variables is a state under a strategy.

set_option autoImplicit false

namespace Coalition

/-- States the team cannot tell apart, and the actions it may take there. -/
structure Observation where
  states : Region
  actions : List Region

structure Encoding where
  bits : List Nat
  top : Region
  valid : Region
  follow : Relation
  /-- The team cannot tell the states apart; the strategy is the same. -/
  equiv : Relation
  jump : Relation
  fairness : List Region
  reachable : Region
  size : Nat

namespace Encoding

def offered (sys : System) (t : Team) (moves states : Region) : Region :=
  (moves.inter states).hide (sys.stateBits ++ sys.otherInputs t)

/-- The observations of a team in some moves. Each one takes its states away. -/
def observations (sys : System) (t : Team) : (fuel : Nat) → (moves : Region) → Except Error (List Observation)
  | 0, _ => .error .endless
  | fuel + 1, moves =>
      if moves.isEmpty then .ok []
      else do
        let state ← (sys.pickState moves).elim (.error (.space .emptyPick)) .ok
        let states := sys.equivalents t state
        let actions ← (Space.listing (offered sys t moves states) t.actionBits).mapError .space
        let later ← observations sys t fuel (moves.diff states)
        return ⟨states, actions⟩ :: later

structure Rule where
  condition : Region
  action : Region

/-- The rules of an observation, given the variable that holds its choice if it has one. -/
def rulesOf (o : Observation) (choice : Option Variable) : List Rule :=
  match choice with
  | none => o.actions.map fun a => ⟨o.states, a⟩
  | some v => o.actions.zipIdx.map fun (a, k) => ⟨o.states.inter (v.valueRegion false k), a⟩

def hasChoice (o : Observation) : Bool := 1 < o.actions.length

/-- Encode the strategies over `moves`; `equivalence` relates states the team cannot tell apart. -/
def ofMoves (sys : System) (t : Team) (equivalence moves : Region) : Except Error Encoding := do
  let all ← observations sys t (Nat.pow 2 sys.stateBits.length + 1) moves
  let choices := all.filter hasChoice
  let names := (List.range choices.length).map fun i => s!"strat.{i}"
  let vars ← sys.strategyVars names (choices.map (·.actions.length))
  let rules := ((all.filter fun o => !hasChoice o).flatMap fun o => rulesOf o none) ++
    ((choices.zip vars).flatMap fun (o, v) => rulesOf o (some v))
  let mask := maskAll vars false
  let unchanged := Region.interAll (vars.map (·.unchanged))
  let top := sys.statesMask.inter mask
  let follow := rules.foldl (fun r rule => r.inter (rule.condition.implies rule.action))
    (sys.trans.inter unchanged)
  let enabled (rule : Rule) : Region := (moves.inter rule.action).hide sys.inputBits
  let valid := rules.foldl (fun r rule => r.inter (rule.condition.implies (enabled rule))) mask
  let stay := (sys.statesMask.inter (maskAll vars true)).inter sys.identity
  return {
    bits := vars.flatMap (·.bits)
    top
    valid := valid.inter top
    follow := sys.toFrame.relation follow vars
    equiv := sys.toFrame.relation (equivalence.inter unchanged) vars
    jump := sys.toFrame.relation stay vars
    fairness := sys.fairness
    reachable := sys.reachable
    size := sys.space.size }

variable (e : Encoding)

def box (z : Region) : Region := e.valid.inter (e.top.diff (e.follow.pre (e.top.diff z)))

def dia (x : Region) : Region := e.valid.inter (e.follow.pre x)

def least (f : Region → Counted Region) : Counted Region := Region.fixpoint e.size .empty f

def greatest (f : Region → Counted Region) : Counted Region := Region.fixpoint e.size e.top f

def unfair : Counted Region := do
  if e.fairness.isEmpty then return .empty
  let fair ← e.greatest fun z => Region.interOver e.top (fun c => do
    let reached ← e.least fun y => pure ((z.inter c).union (e.dia y))
    return e.dia reached) e.fairness
  return e.valid.diff fair

def strong (left right unfair : Region) : Counted Region :=
  if e.fairness.isEmpty then e.least fun z => pure (right.union (left.inter (e.box z)))
  else
    let stay := (left.union right).union unfair
    e.least fun z => do
      let won ← Region.unionOver (fun c => do
        let avoid ← e.greatest fun y =>
          pure (((z.union (e.top.diff c)).inter stay).inter (right.union (e.box y)))
        return e.box avoid) e.fairness
      return stay.inter (right.union won)

def weak (left right unfair : Region) : Counted Region :=
  let stay := (left.union right).union unfair
  e.greatest fun z => pure (stay.inter (right.union (e.box z)))

/-- The states where some strategy wins from every reachable state the team cannot tell apart. -/
def winning (goal : Goal) (unfair : Region) : Counted Region := do
  let left := goal.left.inter e.top
  let right := goal.right.inter e.top
  let won ← match goal.kind with
    | .next => pure (e.box (right.union unfair))
    | .strong => e.strong left right unfair
    | .weak => e.weak left right unfair
  let losing := e.equiv.pre (e.reachable.inter (e.top.diff won))
  return ((e.jump.pre (e.top.diff losing)).hide e.bits).inter e.reachable

end Encoding

end Coalition
