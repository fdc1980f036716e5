import Coalition.Model.Team
import Coalition.Strategy.Goal

-- Games on states: a team that sees the whole state.

set_option autoImplicit false

namespace Coalition

structure StateGame where
  sys : System
  team : Team
  protocol : Region

namespace StateGame

variable (g : StateGame)

def force (target : Region) : Region := g.sys.forcingStates g.team g.protocol target .univ

/-- The states where the team cannot prevent a step into `target`. -/
def permit (target : Region) : Region := g.sys.unavoidableStates g.team g.protocol target

def least (f : Region → Counted Region) : Counted Region :=
  Region.fixpoint g.sys.space.size .empty f

def greatest (f : Region → Counted Region) : Counted Region :=
  Region.fixpoint g.sys.space.size g.sys.statesMask f

/-- The states where the team can force a path on which some constraint holds only finitely often. -/
def unfair : Counted Region :=
  g.least fun z => Region.unionOver (fun c => do
    let avoid ← g.greatest fun y =>
      pure ((z.union (g.sys.statesOutside c)).inter (g.force y))
    return g.force avoid) g.sys.fairness

/-- The states where the team cannot avoid a fair path that stays in `body`. -/
def permitAlways (body : Region) : Counted Region :=
  if g.sys.fairness.isEmpty then g.greatest fun z => pure (body.inter (g.permit z))
  else
    g.greatest fun z => Region.interOver body (fun c => do
      let reached ← g.least fun y => pure ((z.inter c).union (body.inter (g.permit y)))
      return g.permit reached) g.sys.fairness

def fair : Counted Region := g.permitAlways g.sys.statesMask

def forceNext (unfair right : Region) : Region := g.force (right.union unfair)

def forceStrong (unfair left right : Region) : Counted Region :=
  if g.sys.fairness.isEmpty then g.least fun z => pure (right.union (left.inter (g.force z)))
  else
    let stay := (right.union left).union unfair
    g.least fun z => do
      let won ← Region.unionOver (fun c => do
        let avoid ← g.greatest fun y =>
          pure ((stay.inter (z.union (g.sys.statesOutside c))).inter (right.union (g.force y)))
        return g.force avoid) g.sys.fairness
      return stay.inter (right.union won)

def forceWeak (unfair left right : Region) : Counted Region :=
  let stay := (right.union left).union unfair
  g.greatest fun y => pure (stay.inter (right.union (g.force y)))

def permitNext (fair right : Region) : Region := g.permit (right.inter fair)

def permitStrong (fair left right : Region) : Counted Region :=
  let goal := right.inter fair
  g.least fun y => pure (goal.union (left.inter (g.permit y)))

def permitWeak (fair left right : Region) : Counted Region :=
  if g.sys.fairness.isEmpty then g.greatest fun z => pure (right.union (left.inter (g.permit z)))
  else
    let goal := right.inter fair
    g.greatest fun z => do
      let stay ← Region.interOver left (fun c => do
        let reached ← g.least fun y =>
          pure ((goal.union (z.inter c)).union (left.inter (g.permit y)))
        return g.permit reached) g.sys.fairness
      return goal.union stay

end StateGame

end Coalition
