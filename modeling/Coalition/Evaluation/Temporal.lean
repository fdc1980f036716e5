import Coalition.Strategy.Goal
import Coalition.Model.Team

-- Only fair paths count: those on which every constraint holds infinitely often.

set_option autoImplicit false

namespace Coalition.System

variable (sys : System)

def least (f : Region → Counted Region) : Counted Region :=
  Region.fixpoint sys.space.size .empty f

def greatest (f : Region → Counted Region) : Counted Region :=
  Region.fixpoint sys.space.size sys.statesMask f

def someAlways (states : Region) : Counted Region :=
  if sys.fairness.isEmpty then sys.greatest fun z => pure (states.inter (sys.pre z))
  else
    sys.greatest fun z => Region.interOver states (fun c => do
      let reached ← sys.least fun y => pure ((z.inter c).union (states.inter (sys.pre y)))
      return sys.pre reached) sys.fairness

def fairStates : Counted Region := sys.someAlways sys.statesMask

/-- The states with a successor in `states` that has a fair path. -/
def someNext (fair states : Region) : Region := sys.pre ((sys.statesOf states).inter fair)

/-- The states with a fair path through `left` to a reachable state of `right`. -/
def someUntil (fair left right : Region) : Counted Region :=
  let goal := (right.inter fair).inter sys.reachable
  sys.least fun x => pure (goal.union (left.inter (sys.someNext fair x)))

/-- The states where the team, pooling its observations, considers a reachable fair state of
`states` possible. -/
def possible (fair : Region) (t : Team) (states : Region) : Region :=
  sys.equivalents t ((states.inter sys.reachable).inter fair)

def possibleForSome (fair : Region) (t : Team) (states : Region) : Region :=
  Region.unionAll (t.singles.map fun agent => sys.possible fair agent states)

/-- The states from which a chain of possibilities for single members leads to `states`. -/
def possibleByChain (fair : Region) (t : Team) (states : Region) : Counted Region :=
  sys.least fun z => pure (sys.possibleForSome fair t (z.union states))

/-- The states that some member cannot tell from those of `states`. -/
def equivalentsForSome (t : Team) (states : Region) : Region :=
  Region.unionAll (t.singles.map fun agent => sys.equivalents agent states)

/-- The states that a chain of reachable states links to `states`, some member not telling each from
the next. -/
def equivalentsByChain (t : Team) (states : Region) : Counted Region :=
  sys.least fun z => pure (states.union ((sys.equivalentsForSome t z).inter sys.reachable))

end Coalition.System
