import Coalition.Diagram.Memo

-- A leaf that holds weighs as much as the whole space, and a node is the mean of its branches, whatever variables lie between them.

set_option autoImplicit false

namespace Coalition.Diagram

def weigh (total : Nat) : Diagram → Nat
  | .leaf value => if value then total else 0
  | .node _ low high => (low.weigh total + high.weigh total) / 2

structure Weighed (total : Nat) where
  source : Diagram
  weight : Nat
  correct : weight = source.weigh total

variable {total : Nat}

def findWeighed (d : Diagram) : List (Weighed total) → Option { n : Nat // n = d.weigh total }
  | [] => none
  | w :: rest =>
      if same : w.source = d then some ⟨w.weight, by rw [w.correct, same]⟩ else findWeighed d rest

def weighShared : (d : Diagram) → Memo (Weighed total) →
    { n : Nat // n = d.weigh total } × Memo (Weighed total)
  | .leaf value, work => (⟨if value then total else 0, rfl⟩, work)
  | .node var low high, work =>
      let source := Diagram.node var low high
      match findWeighed source (work.find source.key (spread source.key)) with
      | some n => (n, work)
      | none =>
          let (l, work) := weighShared low work
          let (h, work) := weighShared high work
          have correct : (l.1 + h.1) / 2 = source.weigh total := by rw [l.2, h.2]; rfl
          (⟨(l.1 + h.1) / 2, correct⟩,
            work.insert source.key ⟨source, (l.1 + h.1) / 2, correct⟩ (spread source.key))

/-- The number of valuations of the variables below `vars` on which the diagram holds. -/
def count (vars : Nat) (d : Diagram) : Nat :=
  (@weighShared (Nat.pow 2 vars) d .empty).1.1

end Coalition.Diagram
