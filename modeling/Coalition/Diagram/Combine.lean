import Coalition.Diagram.Memo

-- `combine` is the plain recursion; `merge` is the same function computed once for every pair of nodes.

set_option autoImplicit false

namespace Coalition.Diagram

def mapLeaves (f : Bool → Bool) : Diagram → Diagram
  | .leaf value => .leaf (f value)
  | .node var low high => join var (low.mapLeaves f) (high.mapLeaves f)

/-- Combine a node testing `var` with a diagram, given how its branches combine. -/
def combineNode (var : Nat) (onLow onHigh : Diagram → Diagram) : Diagram → Diagram
  | .leaf value => join var (onLow (.leaf value)) (onHigh (.leaf value))
  | .node w low high =>
      if var < w then join var (onLow (.node w low high)) (onHigh (.node w low high))
      else if w < var then
        join w (combineNode var onLow onHigh low) (combineNode var onLow onHigh high)
      else join var (onLow low) (onHigh high)

def combine (op : Bool → Bool → Bool) : Diagram → Diagram → Diagram
  | .leaf value => mapLeaves (op value)
  | .node var low high => combineNode var (combine op low) (combine op high)

theorem holds_map_leaves (f : Bool → Bool) (d : Diagram) (ρ : Valuation) :
    (d.mapLeaves f).holds ρ = f (d.holds ρ) := by
  induction d with
  | leaf => rfl
  | node var low high lowIh highIh =>
      simp only [mapLeaves, holds_join, lowIh, highIh, holds]
      split <;> rfl

theorem holds_combine_node (op : Bool → Bool → Bool) (var : Nat) (low high d : Diagram)
    (ρ : Valuation)
    (lowIh : ∀ e, (combine op low e).holds ρ = op (low.holds ρ) (e.holds ρ))
    (highIh : ∀ e, (combine op high e).holds ρ = op (high.holds ρ) (e.holds ρ)) :
    (combineNode var (combine op low) (combine op high) d).holds ρ =
      op ((node var low high).holds ρ) (d.holds ρ) := by
  induction d with
  | leaf => simp only [combineNode, holds_join, lowIh, highIh, holds]; split <;> rfl
  | node w l h lIh hIh =>
      unfold combineNode
      split
      · simp only [holds_join, lowIh, highIh, holds]
        split <;> rfl
      · split
        · simp only [holds_join, lIh, hIh, holds]
          cases ρ w <;> simp
        · have same : w = var := by omega
          subst same
          simp only [holds_join, lowIh, highIh, holds]
          cases ρ w <;> simp

theorem holds_combine (op : Bool → Bool → Bool) (a b : Diagram) (ρ : Valuation) :
    (combine op a b).holds ρ = op (a.holds ρ) (b.holds ρ) := by
  induction a generalizing b with
  | leaf value => exact holds_map_leaves (op value) b ρ
  | node var low high lowIh highIh =>
      exact holds_combine_node op var low high b ρ lowIh highIh

theorem above_map_leaves (f : Bool → Bool) {d : Diagram} {bound : Nat} (canonical : d.Canonical)
    (above : d.Above bound) : (d.mapLeaves f).Above bound := by
  induction d generalizing bound with
  | leaf => trivial
  | node var low high lowIh _ =>
      obtain ⟨_, lowAbove, _, lowCanonical, _⟩ := canonical
      exact above_join above (lowIh lowCanonical lowAbove)

theorem canonical_map_leaves (f : Bool → Bool) {d : Diagram} (canonical : d.Canonical) :
    (d.mapLeaves f).Canonical := by
  induction d with
  | leaf => trivial
  | node var low high lowIh highIh =>
      obtain ⟨_, lowAbove, highAbove, lowCanonical, highCanonical⟩ := canonical
      exact canonical_join (above_map_leaves f lowCanonical lowAbove)
        (above_map_leaves f highCanonical highAbove) (lowIh lowCanonical) (highIh highCanonical)

theorem shape_combine_node {var : Nat} {onLow onHigh : Diagram → Diagram}
    (lowShape : ∀ e : Diagram, e.Canonical → (onLow e).Canonical ∧
      ∀ bound ≤ var + 1, e.Above bound → (onLow e).Above bound)
    (highShape : ∀ e : Diagram, e.Canonical → (onHigh e).Canonical ∧
      ∀ bound ≤ var + 1, e.Above bound → (onHigh e).Above bound)
    {d : Diagram} (canonical : d.Canonical) :
    (combineNode var onLow onHigh d).Canonical ∧
      ∀ bound ≤ var, d.Above bound → (combineNode var onLow onHigh d).Above bound := by
  induction d with
  | leaf value =>
      have low := lowShape (.leaf value) trivial
      have high := highShape (.leaf value) trivial
      have lowAbove := low.2 (var + 1) (Nat.le_refl _) trivial
      have highAbove := high.2 (var + 1) (Nat.le_refl _) trivial
      exact ⟨canonical_join lowAbove highAbove low.1 high.1,
        fun bound le _ => above_join le lowAbove⟩
  | node w l h lIh hIh =>
      unfold combineNode
      split
      · rename_i less
        have low := lowShape (.node w l h) canonical
        have high := highShape (.node w l h) canonical
        have lowAbove := low.2 (var + 1) (Nat.le_refl _) less
        have highAbove := high.2 (var + 1) (Nat.le_refl _) less
        exact ⟨canonical_join lowAbove highAbove low.1 high.1,
          fun bound le _ => above_join le lowAbove⟩
      · obtain ⟨_, lAbove, hAbove, lCanonical, hCanonical⟩ := canonical
        split
        · rename_i less
          have low := lIh lCanonical
          have high := hIh hCanonical
          have lowAbove := low.2 (w + 1) less lAbove
          have highAbove := high.2 (w + 1) less hAbove
          exact ⟨canonical_join lowAbove highAbove low.1 high.1,
            fun bound _ above => above_join above lowAbove⟩
        · have same : w = var := by omega
          subst same
          have low := lowShape l lCanonical
          have high := highShape h hCanonical
          have lowAbove := low.2 (w + 1) (Nat.le_refl _) lAbove
          have highAbove := high.2 (w + 1) (Nat.le_refl _) hAbove
          exact ⟨canonical_join lowAbove highAbove low.1 high.1,
            fun bound le _ => above_join le lowAbove⟩

theorem shape_combine (op : Bool → Bool → Bool) {a b : Diagram} (aCanonical : a.Canonical)
    (bCanonical : b.Canonical) : (combine op a b).Canonical ∧
      ∀ bound, a.Above bound → b.Above bound → (combine op a b).Above bound := by
  induction a generalizing b with
  | leaf value =>
      exact ⟨canonical_map_leaves (op value) bCanonical,
        fun bound _ above => above_map_leaves (op value) bCanonical above⟩
  | node var low high lowIh highIh =>
      obtain ⟨_, lowAbove, highAbove, lowCanonical, highCanonical⟩ := aCanonical
      have shape := @shape_combine_node var _ _
        (fun e canonical => ⟨(lowIh lowCanonical canonical).1, fun bound le above =>
          (lowIh lowCanonical canonical).2 bound (above_mono le lowAbove) above⟩)
        (fun e canonical => ⟨(highIh highCanonical canonical).1, fun bound le above =>
          (highIh highCanonical canonical).2 bound (above_mono le highAbove) above⟩) _ bCanonical
      exact ⟨shape.1, fun bound aAbove bAbove => shape.2 bound aAbove bAbove⟩

theorem combine_leaf_left (op : Bool → Bool → Bool) (value : Bool)
    (idle : op value false = op value true) (d : Diagram) :
    combine op (.leaf value) d = .leaf (op value false) := by
  induction d with
  | leaf x => cases x <;> simp [combine, mapLeaves, idle]
  | node var low high lowIh highIh =>
      have lowLeaf : low.mapLeaves (op value) = .leaf (op value false) := lowIh
      have highLeaf : high.mapLeaves (op value) = .leaf (op value false) := highIh
      simp [combine, mapLeaves, lowLeaf, highLeaf, join]

theorem combine_leaf_right (op : Bool → Bool → Bool) (value : Bool)
    (idle : op false value = op true value) (d : Diagram) :
    combine op d (.leaf value) = .leaf (op false value) := by
  induction d with
  | leaf x => cases x <;> simp [combine, mapLeaves, idle]
  | node var low high lowIh highIh =>
      simp [combine, combineNode, lowIh, highIh, join]

structure Merged (op : Bool → Bool → Bool) where
  left : Diagram
  right : Diagram
  result : Diagram
  correct : result = combine op left right

structure Merging (op : Bool → Bool → Bool) where
  nodes : Memo Diagram := .empty
  merged : Memo (Merged op) := .empty

variable {op : Bool → Bool → Bool}

def pairKey (a b : Diagram) : UInt64 := a.key * 2685821657736338717 + b.key

def findMerged (a b : Diagram) : List (Merged op) → Option { r : Diagram // r = combine op a b }
  | [] => none
  | m :: rest =>
      if left : m.left = a then
        if right : m.right = b then some ⟨m.result, by rw [m.correct, left, right]⟩
        else findMerged a b rest
      else findMerged a b rest

def recallMerged (a b : Diagram)
    (compute : Merging op → { r : Diagram // r = combine op a b } × Merging op)
    (work : Merging op) : { r : Diagram // r = combine op a b } × Merging op :=
  let key := pairKey a b
  match findMerged a b (work.merged.find key (spread key)) with
  | some r => (r, work)
  | none =>
      let (r, ⟨nodes, merged⟩) := compute work
      (r, ⟨nodes, merged.insert key ⟨a, b, r.1, r.2⟩ (spread key)⟩)

def mergeBranches (var : Nat) {Low High Whole : Diagram → Prop}
    (correct : ∀ l h, Low l → High h → Whole (join var l h))
    (onLow : Merging op → { r : Diagram // Low r } × Merging op)
    (onHigh : Merging op → { r : Diagram // High r } × Merging op)
    (work : Merging op) : { r : Diagram // Whole r } × Merging op :=
  let (l, work) := onLow work
  let (h, ⟨nodes, merged⟩) := onHigh work
  let (r, nodes) := shareJoin nodes var l.1 h.1
  (⟨r.1, by rw [r.2]; exact correct l.1 h.1 l.2 h.2⟩, ⟨nodes, merged⟩)

def mergeLeaf (value : Bool) :
    (d : Diagram) → Merging op → { r : Diagram // r = combine op (.leaf value) d } × Merging op
  | .leaf x, work => (⟨.leaf (op value x), rfl⟩, work)
  | .node var low high, work =>
      if idle : op value false = op value true then
        (⟨.leaf (op value false), (combine_leaf_left op value idle _).symm⟩, work)
      else
        recallMerged (.leaf value) (.node var low high)
          (mergeBranches var (by rintro _ _ rfl rfl; rfl) (mergeLeaf value low)
            (mergeLeaf value high)) work

def mergeNode (var : Nat) (low high : Diagram)
    (onLow : (d : Diagram) → Merging op → { r : Diagram // r = combine op low d } × Merging op)
    (onHigh : (d : Diagram) → Merging op → { r : Diagram // r = combine op high d } × Merging op) :
    (d : Diagram) → Merging op →
      { r : Diagram // r = combine op (.node var low high) d } × Merging op
  | .leaf value, work =>
      if idle : op false value = op true value then
        (⟨.leaf (op false value), (combine_leaf_right op value idle _).symm⟩, work)
      else
        recallMerged (.node var low high) (.leaf value)
          (mergeBranches var (by rintro _ _ rfl rfl; rfl) (onLow (.leaf value))
            (onHigh (.leaf value))) work
  | .node w l h, work =>
      recallMerged (.node var low high) (.node w l h)
        (if less : var < w then
          mergeBranches var (by rintro _ _ rfl rfl; rw [combine, combineNode, if_pos less])
            (onLow (.node w l h)) (onHigh (.node w l h))
        else if more : w < var then
          mergeBranches w (by rintro _ _ rfl rfl; rw [combine, combineNode, if_neg less, if_pos more])
            (mergeNode var low high onLow onHigh l) (mergeNode var low high onLow onHigh h)
        else
          mergeBranches var (by rintro _ _ rfl rfl; rw [combine, combineNode, if_neg less, if_neg more])
            (onLow l) (onHigh h)) work

def merge (a b : Diagram) (work : Merging op) :
    { r : Diagram // r = combine op a b } × Merging op :=
  match a with
  | .leaf value => mergeLeaf value b work
  | .node var low high =>
      mergeNode var low high (fun d => merge low d) (fun d => merge high d) b work

end Coalition.Diagram
