import Coalition.Evaluation.Decide

-- The search for strategies from requested states.

set_option autoImplicit false

namespace Coalition

/-- How the operands of a goal are evaluated on some states; a next-step goal has no left one. -/
structure Operands where
  kind : GoalKind
  left : Region → Eval Region
  right : Region → Eval Region

def Operands.on (o : Operands) (states : Region) : Eval Goal := do
  let left ← if o.kind = .next then pure .empty else o.left states
  let right ← o.right states
  return ⟨o.kind, left, right⟩

structure Search where
  ev : Evaluator
  team : Team
  protocol : Region
  operands : Operands

namespace Search

variable (s : Search)

def splitter : Splitter := s.ev.splitter s.team

/-- The reachable states that cannot be told from some of `states`. -/
def closeStates (ev : Evaluator) (team : Team) (states : Region) : Region :=
  match ev.options.semantics with
  | .group => (ev.sys.equivalents team states).inter ev.sys.reachable
  | .individual =>
      team.singles.foldl
        (fun r agent => r.union ((ev.sys.equivalents agent states).inter ev.sys.reachable)) states

def close (states : Region) : Region := closeStates s.ev s.team states

/-- The moves of a strategy that win. The operands are evaluated where the strategy is defined, or
for a next-step goal where it leads from `source`. -/
def winning (strategy source : Region) : Eval Region := do
  let sys := s.ev.sys
  let states := if s.operands.kind = .next then sys.post (source.inter strategy)
    else strategy.hide sys.inputBits
  let goal ← s.operands.on states
  s.ev.winningMoves s.team s.protocol goal strategy

/-- The first states, from the initial ones on, among which there is a state of `all`. -/
def reachUntil (sys : System) (all : Region) : (fuel : Nat) → Region → Region
  | 0, _ => all
  | fuel + 1, reached =>
      if reached.meets all then reached
      else
        let next := reached.union (sys.post reached)
        if next = reached then all else reachUntil sys all fuel next

def separate (all : Region) : Except Error Region := do
  let sys := s.ev.sys
  match s.ev.options.separation with
  | .none => return all
  | .random =>
      let state ← s.splitter.pickState all
      return (s.close state).inter all
  | .reach =>
      let near := reachUntil sys all (Nat.pow 2 sys.stateBits.length + 1) sys.init
      let state ← s.splitter.pickState (near.inter all)
      return (s.close state).inter all

/-- How far a round has come: the states still to be won, those won, and whether to start over. -/
structure Progress where
  remaining : Region
  won : Region
  stopped : Bool

def stop (remaining won : Region) : Eval Progress := do
  .count .earlyStops 1
  return ⟨remaining, won, true⟩

/-- Try one strategy after another on the states of a round, until it is time to stop. -/
def tryAll (round closed : Region) (size : Nat) :
    Enumeration Region → (remaining won : Region) → Eval Progress
  | .done, remaining, won => pure ⟨remaining, won, false⟩
  | .fail e, _, _ => throw e
  | .item strategy tail, remaining, won => do
      .count .strategies 1
      let moves ← s.winning strategy closed
      let states := s.splitter.surelyWinning (moves.hide s.ev.sys.inputBits)
      let now := won.union (states.inter round)
      match s.ev.options.early with
      | .none => tryAll round closed size (tail ()) remaining now
      | .full =>
          if round.subset now then stop .empty now
          else tryAll round closed size (tail ()) remaining now
      | .progress =>
          if now ≠ won then stop (remaining.diff now) now
          else tryAll round closed size (tail ()) remaining now
      | .threshold =>
          let remaining := remaining.diff now
          match s.ev.options.threshold.allows (s.ev.sys.countStates remaining) size with
          | none => throw .noThreshold
          | some true => stop remaining now
          | some false => tryAll round closed size (tail ()) remaining now

/-- The strategies on some states, extended within the moves of interest. -/
def strategies (closed moves : Region) : Enumeration Region :=
  (s.splitter.split (closed.inter moves) .empty).bind fun start =>
    s.splitter.extend s.protocol start moves

/-- Win the states of a round. Starting over leaves fewer states. -/
def winRound (moves round : Region) : (fuel : Nat) → (remaining won : Region) → Eval Region
  | 0, _, _ => throw .endless
  | fuel + 1, remaining, won => do
      if remaining.isEmpty then return won
      let closed := s.close remaining
      let size := s.ev.sys.countStates remaining
      let p ← s.tryAll round closed size (s.strategies closed moves) remaining won
      if p.stopped then winRound moves round fuel p.remaining p.won else return p.won

def winAll (moves : Region) : (fuel : Nat) → (all won : Region) → Eval Region
  | 0, _, _ => throw .endless
  | fuel + 1, all, won => do
      if all.isEmpty then return won
      let round ← Eval.ofExcept (s.separate all)
      let won ← s.winRound moves round (Nat.pow 2 s.ev.sys.stateBits.length + 1) round won
      winAll moves fuel ((all.diff round).diff won) won

/-- The states won by some strategy, among the requested ones and those that cannot be told from
them. -/
def run (states : Region) : Eval Region := do
  let sys := s.ev.sys
  let moves ←
    if s.ev.options.filtering then s.winning (s.protocol.inter (sys.reachFrom states)) states
    else pure s.protocol
  let possible := s.splitter.surelyWinning (moves.hide sys.inputBits)
  s.winAll moves (Nat.pow 2 sys.stateBits.length + 1) (states.inter possible) .empty

end Search

end Coalition
