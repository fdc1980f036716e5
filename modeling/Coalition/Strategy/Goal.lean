import Coalition.Region.Fixpoint

-- Goals of a coalition: what has to hold next, or until what.

set_option autoImplicit false

namespace Coalition

inductive GoalKind where
  | next
  | strong
  | weak
deriving DecidableEq, Repr

structure Goal where
  kind : GoalKind
  left : Region
  right : Region

namespace Region

def unionOver (f : Region → Counted Region) : List Region → Counted Region
  | [] => pure .empty
  | c :: rest => do
      let r ← f c
      let s ← unionOver f rest
      return r.union s

/-- The intersection of `start` with a computed region for each of a list. -/
def interOver (start : Region) (f : Region → Counted Region) : List Region → Counted Region
  | [] => pure start
  | c :: rest => do
      let r ← f c
      let s ← interOver start f rest
      return r.inter s

end Region

end Coalition
