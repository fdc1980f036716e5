import Coalition.Model.Team
import Coalition.Options
import Coalition.Strategy.Enumeration

-- A set of moves is split, class by class of states that the team cannot tell apart, into its maximal parts with one action for each
-- class.

set_option autoImplicit false

namespace Coalition

structure Splitter where
  sys : System
  team : Team
  semantics : Semantics

namespace Splitter

variable (sp : Splitter)

def pickMove (moves : Region) : Except Error Region :=
  (sp.sys.pickMove moves).elim (.error (.space .emptyPick)) .ok

def pickState (moves : Region) : Except Error Region :=
  (sp.sys.pickState moves).elim (.error (.space .emptyPick)) .ok

/-- More than there are moves. Every step of a split sets at least one move aside. -/
def bound : Nat := Nat.pow 2 (sp.sys.stateBits.length + sp.sys.inputBits.length) + 1

/-- The reachable states that a team cannot tell from those of `states`. -/
def classOf (team : Team) (states : Region) : Region :=
  (sp.sys.equivalents team states).inter sp.sys.reachable

/-- The states that have to be handled together with those of a move. -/
def classOfMove (move : Region) : Region :=
  match sp.semantics with
  | .group => sp.classOf sp.team move
  | .individual => sp.sys.commonEquivalents sp.team move

def actionOf (team : Team) (moves : Region) : Region :=
  moves.hide (sp.sys.stateBits ++ sp.sys.otherInputs team)

/-- Whether some move has another action of the team than the least one. -/
def hasTwoActions (team : Team) (moves : Region) : Except Error Bool := do
  let move ← sp.pickMove moves
  return !(moves.diff (sp.actionOf team move)).isEmpty

/-- Whether a team has two actions in some class of its own within the moves. -/
def conflictsIn (team : Team) : (fuel : Nat) → Region → Except Error Bool
  | 0, _ => .ok false
  | fuel + 1, moves =>
      if moves.isEmpty then .ok false
      else do
        let move ← sp.pickMove moves
        let part := moves.inter (sp.classOf team move)
        if ← sp.hasTwoActions team part then return true
        conflictsIn team fuel (moves.diff part)

def anyConflicts (moves : Region) : List Team → Except Error Bool
  | [] => .ok false
  | team :: rest => do
      if ← sp.conflictsIn team sp.bound moves then return true
      anyConflicts moves rest

def isConflicting (moves : Region) : Except Error Bool :=
  match sp.semantics with
  | .group => sp.hasTwoActions sp.team moves
  | .individual => sp.anyConflicts moves sp.team.singles

/-- Moves without a choice, a class that leaves one, and the moves not looked at. -/
structure Parting where
  common : Region
  conflicting : Region
  rest : Region

/-- Set classes aside until one leaves a choice or has a move in `fixed`. -/
def part (fixed : Region) : (fuel : Nat) → (common moves : Region) → Except Error Parting
  | 0, _, _ => .error .endless
  | fuel + 1, common, moves =>
      if moves.isEmpty then .ok ⟨common, .empty, .empty⟩
      else do
        let move ← sp.pickMove moves
        let states := sp.classOfMove move
        let here := moves.inter states
        let rest := moves.diff here
        if (← sp.isConflicting here) || states.meets fixed then return ⟨common, here, rest⟩
        part fixed fuel (common.union here) rest

/-- The moves of a class by the action of the team, without the actions that `fixed` excludes. -/
def buckets (team : Team) (fixed : Region) : (fuel : Nat) → Region → Enumeration Region
  | 0, _ => .fail .endless
  | fuel + 1, moves =>
      if moves.isEmpty then .done
      else
        .ofExcept (sp.pickMove moves) fun move =>
          let bucket := moves.inter (sp.actionOf team move)
          let known := (sp.classOf team bucket).inter fixed
          let later (_ : Unit) := buckets team fixed fuel (moves.diff bucket)
          if known.isEmpty || (sp.actionOf team known).meets bucket then .item bucket later
          else later ()

def splitAgent (agent : Team) (fixed : Region) : (fuel : Nat) → Region → Enumeration Region
  | 0, _ => .fail .endless
  | fuel + 1, moves =>
      if moves.isEmpty then .single moves
      else
        .ofExcept (sp.pickState moves) fun state =>
          let here := moves.inter (sp.classOf agent state)
          let rest := moves.diff here
          if here.isEmpty then .fail .endless
          else
            match sp.buckets agent fixed sp.bound here with
            | .done => splitAgent agent fixed fuel rest
            | found => found.bind fun bucket => (splitAgent agent fixed fuel rest).map (·.union bucket)

def splitAgents (fixed moves : Region) : List Team → Enumeration Region
  | [] => .single moves
  | agent :: others =>
      (splitAgents fixed moves others).bind fun part =>
        sp.splitAgent agent fixed sp.bound part

/-- The uniform parts of a class; an empty one if `fixed` excludes them all. -/
def splitClass (fixed moves : Region) : Enumeration Region :=
  match sp.semantics with
  | .individual => sp.splitAgents fixed moves sp.team.singles
  | .group =>
      match sp.buckets sp.team fixed sp.bound moves with
      | .done => .single .empty
      | found => found

def splitFrom (fixed : Region) : (fuel : Nat) → Region → Enumeration Region
  | 0, _ => .fail .endless
  | fuel + 1, moves =>
      if moves.isEmpty then .single moves
      else
        .ofExcept (sp.part fixed sp.bound .empty moves) fun p =>
          if p.conflicting.isEmpty then .single p.common
          else
            (sp.splitClass fixed p.conflicting).bind fun choice =>
              (splitFrom fixed fuel p.rest).map fun s => (p.common.union s).union choice

/-- The maximal uniform strategies within `moves` that agree with `fixed`. No moves give one empty
strategy. -/
def split (moves fixed : Region) : Enumeration Region :=
  let mask := sp.sys.movesMask
  sp.splitFrom (fixed.inter mask) sp.bound (moves.inter mask)

/-- The states a strategy leads to within `moves` without having a move there. -/
def freshStates (strategy moves : Region) : Region :=
  sp.sys.statesOf ((sp.sys.postSub strategy moves).diff (strategy.hide sp.sys.inputBits))

def extendFrom (protocol moves : Region) : (fuel : Nat) → Region → Enumeration Region
  | 0, _ => .fail .endless
  | fuel + 1, strategy =>
      let added := (sp.freshStates strategy moves).inter protocol
      if added.isEmpty then .single strategy
      else
        (sp.split added strategy).bind fun s =>
          let next := strategy.union s
          if next = strategy then .single strategy else extendFrom protocol moves fuel next

/-- The strategies that extend a partial one to the states it leads to within `moves`, until it
leads nowhere new. -/
def extend (protocol strategy moves : Region) : Enumeration Region :=
  sp.extendFrom protocol moves sp.bound strategy

/-- The states of `winning` such that all reachable states a team cannot tell from them win. -/
def closedStates (team : Team) (winning : Region) : Region :=
  let losing := (sp.sys.statesOutside (winning.hide sp.sys.inputBits)).inter sp.sys.reachable
  winning.diff (sp.sys.equivalents team losing)

/-- The states where the team knows that it wins: together, or each member alone. -/
def surelyWinning (winning : Region) : Region :=
  match sp.semantics with
  | .group => sp.closedStates sp.team winning
  | .individual =>
      sp.team.singles.foldl (fun r agent => r.inter (sp.closedStates agent winning)) winning

end Splitter

end Coalition
