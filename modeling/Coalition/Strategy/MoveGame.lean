import Coalition.Model.Team
import Coalition.Strategy.Goal

-- Games on moves: a team plays only the moves of a given set, and the moves that win a goal are computed.

set_option autoImplicit false

namespace Coalition

structure MoveGame where
  sys : System
  team : Team
  protocol : Region
  moves : Region

namespace MoveGame

variable (g : MoveGame)

def top : Region := g.sys.movesMask.inter g.moves

def force (target : Region) : Region := g.sys.forcingMoves g.team g.protocol target g.moves

def least (f : Region → Counted Region) : Counted Region :=
  Region.fixpoint g.sys.space.size .empty f

def greatest (f : Region → Counted Region) : Counted Region :=
  Region.fixpoint g.sys.space.size g.top f

def outside (constraint : Region) : Region := (g.sys.statesOutside constraint).inter g.top

/-- The moves that force a path on which some constraint holds only finitely often. -/
def unfair : Counted Region :=
  if g.sys.fairness.isEmpty then pure .empty
  else
    g.least fun z => Region.unionOver (fun c => do
      let avoid ← g.greatest fun y => pure ((z.union (g.outside c)).inter (g.force y))
      return g.force avoid) g.sys.fairness

def next (right : Region) : Counted Region := do
  let unfair ← g.unfair
  return g.force ((right.inter g.sys.movesMask).union unfair)

def strong (left right : Region) : Counted Region := do
  let left := left.inter g.top
  let right := right.inter g.top
  if g.sys.fairness.isEmpty then
    g.least fun z => pure (right.union (left.inter (g.force z)))
  else
    let stay := (right.union left).union (← g.unfair)
    g.least fun z => do
      let won ← Region.unionOver (fun c => do
        let avoid ← g.greatest fun y =>
          pure ((stay.inter (z.union (g.outside c))).inter (right.union (g.force y)))
        return g.force avoid) g.sys.fairness
      return stay.inter (right.union won)

def weak (left right : Region) : Counted Region := do
  let left := left.inter g.top
  let right := right.inter g.top
  let stay := (right.union left).union (← g.unfair)
  g.greatest fun y => pure (stay.inter (right.union (g.force y)))

/-- The moves, within the protocol, that win when the team sticks to the given ones. -/
def winning (goal : Goal) : Counted Region := do
  let won ← match goal.kind with
    | .next => g.next goal.right
    | .strong => g.strong goal.left goal.right
    | .weak => g.weak goal.left goal.right
  return (won.inter g.sys.movesMask).inter g.protocol

end MoveGame

end Coalition
