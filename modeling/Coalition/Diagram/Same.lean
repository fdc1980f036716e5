import Coalition.Diagram.Memo

-- Equality of two diagrams built apart from each other, which share no nodes: every pair of nodes is compared once.

set_option autoImplicit false

namespace Coalition.Diagram

structure Matched where
  left : Diagram
  right : Diagram
  same : left = right

def compareShared : (a b : Diagram) → Memo Matched → Decidable (a = b) × Memo Matched
  | .leaf x, b, work => (decEq (.leaf x) b, work)
  | .node v l h, .leaf y, work => (decEq (.node v l h) (.leaf y), work)
  | .node v l h, .node w l' h', work =>
      let a := Diagram.node v l h
      let b := Diagram.node w l' h'
      match keys : sameKey a b with
      | false => (.isFalse (fun eq => by rw [show a = b from eq, same_key_self] at keys; cases keys), work)
      | true =>
          match findMatched a b (work.find a.key (spread a.key)) with
          | some same => (.isTrue same.down, work)
          | none =>
              match compareShared l l' work with
              | (.isFalse low, work) => (.isFalse (fun eq => by cases eq; exact low rfl), work)
              | (.isTrue low, work) =>
                  match compareShared h h' work with
                  | (.isFalse high, work) => (.isFalse (fun eq => by cases eq; exact high rfl), work)
                  | (.isTrue high, work) =>
                      if var : v = w then
                        have same : a = b := by
                          show Diagram.node v l h = Diagram.node w l' h'
                          rw [low, high, var]
                        (.isTrue same, work.insert a.key ⟨a, b, same⟩ (spread a.key))
                      else (.isFalse (fun eq => by cases eq; exact var rfl), work)
where
  findMatched (a b : Diagram) : List Matched → Option (PLift (a = b))
    | [] => none
    | m :: rest =>
        if left : m.left = a then
          if right : m.right = b then some ⟨by rw [← left, ← right, m.same]⟩
          else findMatched a b rest
        else findMatched a b rest

def decSame (a b : Diagram) : Decidable (a = b) := (compareShared a b .empty).1

end Coalition.Diagram
