import Mathlib.Order.FixedPoints
import Mathlib.Data.Set.Lattice
import Mathlib.Order.CompletePartialOrder
import Coalition.Strategy.Goal

-- Arenas: an operator says from where a set can be forced in one step, and goals are fixpoints over it.

set_option autoImplicit false

namespace Coalition

structure Arena (α : Type) where
  top : Set α
  force : Set α →o Set α
  constraints : List (Set α)
  force_top : ∀ X, force X ⊆ top

namespace Arena

variable {α : Type}

section

variable (a : Arena α)

-- Positions of `stay` that are won already or outside a constraint, and from where `goal` or the same kind of position can be forced.
def avoid (stay goal : Set α) (c z : Set α) : Set α →o Set α where
  toFun y := (stay ∩ (z ∪ a.top \ c)) ∩ (goal ∪ a.force y)
  monotone' _ _ le := Set.inter_subset_inter_right _ (Set.union_subset_union_right _ (a.force.mono le))

-- Positions that force some constraint to be avoided until `z` is reached.
def escape (stay goal : Set α) : Set α →o Set α where
  toFun z := {m | ∃ c ∈ a.constraints, m ∈ a.force (OrderHom.gfp (a.avoid stay goal c z))}
  monotone' := by
    rintro z z' le m ⟨c, listed, forced⟩
    refine ⟨c, listed, a.force.mono (OrderHom.gfp.mono ?_) forced⟩
    intro y
    exact Set.inter_subset_inter_left _ (Set.inter_subset_inter_right _ (Set.union_subset_union_left _ le))

def unfair : Set α := OrderHom.lfp (a.escape Set.univ ∅)

def staying (left right : Set α) : Set α := (right ∪ left) ∪ a.unfair

def approach (left right : Set α) : Set α →o Set α where
  toFun z := right ∪ left ∩ a.force z
  monotone' _ _ le := Set.union_subset_union_right _ (Set.inter_subset_inter_right _ (a.force.mono le))

def approachFair (left right : Set α) : Set α →o Set α where
  toFun z := a.staying left right ∩ (right ∪ a.escape (a.staying left right) right z)
  monotone' _ _ le := Set.inter_subset_inter_right _
    (Set.union_subset_union_right _ ((a.escape (a.staying left right) right).mono le))

def remain (left right : Set α) : Set α →o Set α where
  toFun y := a.staying left right ∩ (right ∪ a.force y)
  monotone' _ _ le := Set.inter_subset_inter_right _ (Set.union_subset_union_right _ (a.force.mono le))

-- One round towards `goal` or a run that avoids a constraint, without leaving `stay`.
def pursue (stay goal : Set α) : Set α →o Set α where
  toFun z := stay ∩ (goal ∪ a.escape stay goal z)
  monotone' _ _ le := Set.inter_subset_inter_right _ (Set.union_subset_union_right _ ((a.escape stay goal).mono le))

def linger (stay goal : Set α) : Set α →o Set α where
  toFun y := stay ∩ (goal ∪ a.force y)
  monotone' _ _ le := Set.inter_subset_inter_right _ (Set.union_subset_union_right _ (a.force.mono le))

def next (right : Set α) : Set α := a.force (right ∪ a.unfair)

def strong (left right : Set α) : Set α :=
  if a.constraints.isEmpty then OrderHom.lfp (a.approach left right) else OrderHom.lfp (a.approachFair left right)

def weak (left right : Set α) : Set α := OrderHom.gfp (a.remain left right)

-- The positions that win a goal. The operands of an until count where something can be played.
def wins (kind : GoalKind) (left right : Set α) : Set α :=
  match kind with
  | .next => a.next right
  | .strong => a.strong (left ∩ a.top) (right ∩ a.top)
  | .weak => a.weak (left ∩ a.top) (right ∩ a.top)

def on (W : Set α) : Arena α where
  top := a.top ∩ W
  force := ⟨fun X => W ∩ a.force X, fun _ _ le => Set.inter_subset_inter_right _ (a.force.mono le)⟩
  constraints := a.constraints
  force_top X := fun _ member => ⟨a.force_top X member.2, member.1⟩

def limit (W : Set α) : Arena α where
  top := a.top
  force := ⟨fun X => W ∩ a.force X, fun _ _ le => Set.inter_subset_inter_right _ (a.force.mono le)⟩
  constraints := a.constraints
  force_top X := fun _ member => a.force_top X member.2

def strongCounting (bad left right : Set α) : Set α :=
  if a.constraints.isEmpty then OrderHom.lfp (a.approach left right) else OrderHom.lfp (a.pursue ((right ∪ left) ∪ bad) right)

def weakCounting (bad left right : Set α) : Set α := OrderHom.gfp (a.linger ((right ∪ left) ∪ bad) right)

def counting (bad : Set α) (kind : GoalKind) (left right : Set α) : Set α :=
  match kind with
  | .next => a.force (right ∪ bad)
  | .strong => a.strongCounting bad (left ∩ a.top) (right ∩ a.top)
  | .weak => a.weakCounting bad (left ∩ a.top) (right ∩ a.top)

theorem wins_eq_counting (kind : GoalKind) (left right : Set α) : a.wins kind left right = a.counting a.unfair kind left right := by
  cases kind <;> rfl

end

-- One arena offers at least as much as another.
structure Le (a b : Arena α) : Prop where
  top : a.top ⊆ b.top
  force : ∀ X, a.force X ⊆ b.force X
  constraints : a.constraints = b.constraints

theorem Le.refl (a : Arena α) : Le a a := ⟨Set.Subset.refl _, fun _ => Set.Subset.refl _, rfl⟩

theorem on_le (a : Arena α) (W : Set α) : Le (a.on W) a :=
  ⟨Set.inter_subset_left, fun _ => Set.inter_subset_right, rfl⟩

theorem on_mono (a : Arena α) {W V : Set α} (le : W ⊆ V) : Le (a.on W) (a.on V) :=
  ⟨Set.inter_subset_inter_right _ le, fun _ => Set.inter_subset_inter_left _ le, rfl⟩

theorem limit_eq {a : Arena α} {W : Set α} (le : ∀ X, a.force X ⊆ W) : a.limit W = a := by
  obtain ⟨top, force, constraints, force_top⟩ := a
  unfold limit
  congr 1
  ext X : 2
  exact Set.inter_eq_right.mpr (le X)

theorem on_on (a : Arena α) (W V : Set α) : (a.on W).on V = a.on (W ∩ V) := by
  unfold on
  congr 1
  · exact Set.inter_assoc _ _ _
  · ext X : 2
    exact (Set.inter_left_comm _ _ _).trans (Set.inter_assoc _ _ _).symm

section

variable {a b : Arena α} {left right left' right' stay stay' goal goal' : Set α}

theorem avoid_le (le : Le a b) (stayLe : stay ⊆ stay') (goalLe : goal ⊆ goal') (c z : Set α) :
    a.avoid stay goal c z ≤ b.avoid stay' goal' c z := by
  intro y
  exact Set.inter_subset_inter
    (Set.inter_subset_inter stayLe (Set.union_subset_union_right _ (Set.sdiff_subset_sdiff_left le.top)))
    (Set.union_subset_union goalLe (le.force y))

theorem escape_le (le : Le a b) (stayLe : stay ⊆ stay') (goalLe : goal ⊆ goal') :
    a.escape stay goal ≤ b.escape stay' goal' := by
  rintro z m ⟨c, listed, forced⟩
  refine ⟨c, le.constraints ▸ listed, ?_⟩
  exact le.force _ (a.force.mono (OrderHom.gfp.mono (avoid_le le stayLe goalLe c z)) forced)

theorem unfair_mono (le : Le a b) : a.unfair ⊆ b.unfair :=
  OrderHom.lfp.mono (escape_le le (Set.Subset.refl _) (Set.Subset.refl _))

section

variable {bad bad' : Set α} (le : Le a b) (badLe : bad ⊆ bad') (leftLe : left ⊆ left') (rightLe : right ⊆ right')

include le badLe leftLe rightLe

theorem strong_counting_mono : a.strongCounting bad left right ⊆ b.strongCounting bad' left' right' := by
  have stayLe := Set.union_subset_union (Set.union_subset_union rightLe leftLe) badLe
  unfold strongCounting
  rw [le.constraints]
  split
  · apply OrderHom.lfp.mono
    intro z
    exact Set.union_subset_union rightLe (Set.inter_subset_inter leftLe (le.force z))
  · apply OrderHom.lfp.mono
    intro z
    exact Set.inter_subset_inter stayLe (Set.union_subset_union rightLe (escape_le le stayLe rightLe z))

theorem weak_counting_mono : a.weakCounting bad left right ⊆ b.weakCounting bad' left' right' := by
  apply OrderHom.gfp.mono
  intro z
  exact Set.inter_subset_inter (Set.union_subset_union (Set.union_subset_union rightLe leftLe) badLe)
    (Set.union_subset_union rightLe (le.force z))

omit badLe in
theorem strong_mono : a.strong left right ⊆ b.strong left' right' := strong_counting_mono le (unfair_mono le) leftLe rightLe

omit badLe in
theorem weak_mono : a.weak left right ⊆ b.weak left' right' := weak_counting_mono le (unfair_mono le) leftLe rightLe

end

theorem counting_mono (le : Le a b) {bad bad' : Set α} (badLe : bad ⊆ bad') (kind : GoalKind) (left right : Set α) :
    a.counting bad kind left right ⊆ b.counting bad' kind left right := by
  have leftLe : left ∩ a.top ⊆ left ∩ b.top := Set.inter_subset_inter_right _ le.top
  have rightLe : right ∩ a.top ⊆ right ∩ b.top := Set.inter_subset_inter_right _ le.top
  cases kind with
  | next => exact fun _ member => le.force _ (a.force.mono (Set.union_subset_union_right _ badLe) member)
  | strong => exact strong_counting_mono le badLe leftLe rightLe
  | weak => exact weak_counting_mono le badLe leftLe rightLe

theorem wins_mono (le : Le a b) (kind : GoalKind) (left right : Set α) :
    a.wins kind left right ⊆ b.wins kind left right := by
  rw [wins_eq_counting, wins_eq_counting]
  exact counting_mono le (unfair_mono le) kind left right

theorem wins_operands_mono (a : Arena α) (kind : GoalKind) (leftLe : left ∩ a.top ⊆ left')
    (rightLe : right ∩ (if kind = .next then Set.univ else a.top) ⊆ right') : a.wins kind left right ⊆ a.wins kind left' right' := by
  have left_ : left ∩ a.top ⊆ left' ∩ a.top := Set.subset_inter leftLe Set.inter_subset_right
  cases kind with
  | next =>
      rw [if_pos rfl, Set.inter_univ] at rightLe
      exact a.force.mono (Set.union_subset_union_left _ rightLe)
  | strong => exact strong_mono (.refl a) left_ (Set.subset_inter rightLe Set.inter_subset_right)
  | weak => exact weak_mono (.refl a) left_ (Set.subset_inter rightLe Set.inter_subset_right)

end

section

variable (a : Arena α) {left right : Set α}

theorem mem_escape {stay goal z : Set α} {m : α} :
    m ∈ a.escape stay goal z ↔ ∃ c ∈ a.constraints, m ∈ a.force (OrderHom.gfp (a.avoid stay goal c z)) := Iff.rfl

theorem escape_subset_top (stay goal z : Set α) : a.escape stay goal z ⊆ a.top :=
  fun _ ⟨_, _, forced⟩ => a.force_top _ forced

theorem unfair_eq : a.escape Set.univ ∅ a.unfair = a.unfair := OrderHom.map_lfp _

theorem unfair_subset_top : a.unfair ⊆ a.top := by
  rw [← unfair_eq]
  exact a.escape_subset_top _ _ _

theorem unfair_empty (none : a.constraints = []) : a.unfair = ∅ := by
  rw [← unfair_eq, Set.eq_empty_iff_forall_notMem]
  rintro m ⟨c, listed, _⟩
  simp [none] at listed

theorem avoid_unfolds {stay goal c z : Set α} {m : α} (member : m ∈ OrderHom.gfp (a.avoid stay goal c z)) :
    m ∈ stay ∧ (m ∈ z ∨ m ∈ a.top \ c) ∧ (m ∈ goal ∨ m ∈ a.force (OrderHom.gfp (a.avoid stay goal c z))) := by
  rw [← OrderHom.map_gfp] at member
  exact ⟨member.1.1, member.1.2, member.2⟩

-- Avoiding a constraint until an unfair position is itself unfair.
theorem avoid_unfair {c z : Set α} (listed : c ∈ a.constraints) (le : z ⊆ a.unfair) :
    OrderHom.gfp (a.avoid Set.univ ∅ c z) ⊆ a.unfair := by
  intro m member
  obtain ⟨_, _, none | forced⟩ := a.avoid_unfolds member
  · exact none.elim
  · rw [← unfair_eq]
    exact (a.escape Set.univ ∅).mono le ⟨c, listed, forced⟩

theorem unfair_forces : a.unfair ⊆ a.force a.unfair := by
  intro m member
  rw [← unfair_eq] at member
  obtain ⟨c, listed, forced⟩ := member
  exact a.force.mono (a.avoid_unfair listed (Set.Subset.refl _)) forced

theorem unfair_on {W : Set α} (le : a.unfair ⊆ W) : (a.on W).unfair = a.unfair := by
  apply Set.Subset.antisymm (unfair_mono (a.on_le W))
  apply OrderHom.lfp_le
  rintro m ⟨c, listed, forced⟩
  have small : (a.on W).unfair ⊆ a.unfair := unfair_mono (a.on_le W)
  have inside : OrderHom.gfp (a.avoid Set.univ ∅ c (a.on W).unfair) ⊆ W :=
    Set.Subset.trans (a.avoid_unfair listed small) le
  have here : m ∈ W := by
    apply le
    rw [← unfair_eq]
    exact (a.escape Set.univ ∅).mono small ⟨c, listed, forced⟩
  have kept : OrderHom.gfp (a.avoid Set.univ ∅ c (a.on W).unfair) ⊆
      OrderHom.gfp ((a.on W).avoid Set.univ ∅ c (a.on W).unfair) := by
    apply OrderHom.le_gfp
    intro n member
    obtain ⟨_, won | outside, none | next⟩ := a.avoid_unfolds member
    · exact none.elim
    · exact ⟨⟨trivial, .inl won⟩, .inr ⟨inside member, next⟩⟩
    · exact none.elim
    · exact ⟨⟨trivial, .inr ⟨⟨outside.1, inside member⟩, outside.2⟩⟩, .inr ⟨inside member, next⟩⟩
  rw [← unfair_eq]
  exact ⟨c, listed, here, a.force.mono kept forced⟩

theorem strong_eq (fair : a.constraints.isEmpty = false) :
    a.strong left right = a.approachFair left right (a.strong left right) := by
  have same : a.strong left right = OrderHom.lfp (a.approachFair left right) := by simp [strong, fair]
  rw [same, OrderHom.map_lfp]

theorem strong_le {Q : Set α} (fair : a.constraints.isEmpty = false) (le : a.approachFair left right Q ⊆ Q) :
    a.strong left right ⊆ Q := by
  have same : a.strong left right = OrderHom.lfp (a.approachFair left right) := by simp [strong, fair]
  rw [same]
  exact OrderHom.lfp_le _ le

theorem strong_eq_free (free : a.constraints.isEmpty = true) :
    a.strong left right = a.approach left right (a.strong left right) := by
  have same : a.strong left right = OrderHom.lfp (a.approach left right) := by simp [strong, free]
  rw [same, OrderHom.map_lfp]

theorem strong_le_free {Q : Set α} (free : a.constraints.isEmpty = true) (le : a.approach left right Q ⊆ Q) :
    a.strong left right ⊆ Q := by
  have same : a.strong left right = OrderHom.lfp (a.approach left right) := by simp [strong, free]
  rw [same]
  exact OrderHom.lfp_le _ le

theorem weak_eq : a.weak left right = a.remain left right (a.weak left right) := (OrderHom.map_gfp _).symm

theorem avoid_strong {c z : Set α} (fair : a.constraints.isEmpty = false) (listed : c ∈ a.constraints)
    (le : z ⊆ a.strong left right) :
    OrderHom.gfp (a.avoid (a.staying left right) right c z) ⊆ a.strong left right := by
  intro m member
  obtain ⟨stay, _, won⟩ := a.avoid_unfolds member
  rw [strong_eq a fair]
  refine (a.approachFair left right).mono le ⟨stay, ?_⟩
  cases won with
  | inl won => exact .inl won
  | inr forced => exact .inr ⟨c, listed, forced⟩

theorem unfair_subset_strong : a.unfair ⊆ a.strong left right := by
  cases fair : a.constraints.isEmpty with
  | true =>
      rw [a.unfair_empty (List.isEmpty_iff.mp fair)]
      exact Set.empty_subset _
  | false =>
      have both : a.unfair ⊆ a.strong left right ∩ a.unfair := by
        apply OrderHom.lfp_le
        rintro m ⟨c, listed, forced⟩
        have small : OrderHom.gfp (a.avoid Set.univ ∅ c (a.strong left right ∩ a.unfair)) ⊆ a.unfair :=
          a.avoid_unfair listed Set.inter_subset_right
        have here : m ∈ a.unfair := by
          rw [← unfair_eq]
          exact (a.escape Set.univ ∅).mono Set.inter_subset_right ⟨c, listed, forced⟩
        have kept : OrderHom.gfp (a.avoid Set.univ ∅ c (a.strong left right ∩ a.unfair)) ⊆
            OrderHom.gfp (a.avoid (a.staying left right) right c (a.strong left right)) := by
          apply OrderHom.le_gfp
          intro n member
          obtain ⟨_, won, none | next⟩ := a.avoid_unfolds member
          · exact none.elim
          · exact ⟨⟨.inr (small member), won.imp_left And.left⟩, .inr next⟩
        refine ⟨?_, here⟩
        rw [strong_eq a fair]
        exact ⟨.inr here, .inr ⟨c, listed, a.force.mono kept forced⟩⟩
      exact fun m member => (both member).1

theorem unfair_subset_weak : a.unfair ⊆ a.weak left right := by
  apply OrderHom.le_gfp
  intro m member
  exact ⟨.inr member, .inr (a.unfair_forces member)⟩

theorem unfair_subset_wins (kind : GoalKind) (left right : Set α) : a.unfair ⊆ a.wins kind left right := by
  cases kind with
  | next => exact fun m member => a.force.mono Set.subset_union_right (a.unfair_forces member)
  | strong => exact a.unfair_subset_strong
  | weak => exact a.unfair_subset_weak

theorem staying_subset_top (leftLe : left ⊆ a.top) (rightLe : right ⊆ a.top) : a.staying left right ⊆ a.top :=
  Set.union_subset (Set.union_subset rightLe leftLe) a.unfair_subset_top

theorem strong_subset_top (leftLe : left ⊆ a.top) (rightLe : right ⊆ a.top) : a.strong left right ⊆ a.top := by
  cases fair : a.constraints.isEmpty with
  | true =>
      rw [strong_eq_free a fair]
      exact Set.union_subset rightLe fun _ member => leftLe member.1
  | false =>
      rw [strong_eq a fair]
      exact fun _ member => a.staying_subset_top leftLe rightLe member.1

theorem weak_subset_top (leftLe : left ⊆ a.top) (rightLe : right ⊆ a.top) : a.weak left right ⊆ a.top := by
  rw [weak_eq]
  exact fun _ member => a.staying_subset_top leftLe rightLe member.1

theorem wins_subset_top (kind : GoalKind) (left right : Set α) : a.wins kind left right ⊆ a.top := by
  cases kind with
  | next => exact a.force_top _
  | strong => exact a.strong_subset_top Set.inter_subset_right Set.inter_subset_right
  | weak => exact a.weak_subset_top Set.inter_subset_right Set.inter_subset_right

theorem staying_on {W : Set α} (le : a.unfair ⊆ W) {m : α} (member : m ∈ a.staying left right) (inside : m ∈ W) :
    m ∈ (a.on W).staying (left ∩ W) (right ∩ W) := by
  obtain (won | on) | bad := member
  · exact .inl (.inl ⟨won, inside⟩)
  · exact .inl (.inr ⟨on, inside⟩)
  · exact .inr (by rwa [a.unfair_on le])

-- The winning positions of a strong until suffice to win it.
theorem strong_on_self : a.strong left right ⊆
    (a.on (a.strong left right)).strong (left ∩ a.strong left right) (right ∩ a.strong left right) := by
  generalize whole : a.strong left right = W
  -- winning within the winning positions is winning, so that both fixpoints can be compared there
  have small : (a.on W).strong (left ∩ W) (right ∩ W) ⊆ W := by
    rw [← whole]
    exact strong_mono (a.on_le _) Set.inter_subset_left Set.inter_subset_left
  cases fair : a.constraints.isEmpty with
  | true =>
      have back : a.approach left right W = W := by rw [← whole, ← strong_eq_free a fair]
      conv_lhs => rw [← whole]
      apply a.strong_le_free fair
      intro m member
      have inside : m ∈ W := by
        rw [← back]
        exact (a.approach left right).mono small member
      rw [strong_eq_free (a.on W) fair]
      obtain won | ⟨on, forced⟩ := member
      · exact .inl ⟨won, inside⟩
      · exact .inr ⟨⟨on, inside⟩, inside, forced⟩
  | false =>
      have unfairLe : a.unfair ⊆ W := whole ▸ a.unfair_subset_strong
      have back : a.approachFair left right W = W := by rw [← whole, ← strong_eq a fair]
      conv_lhs => rw [← whole]
      apply a.strong_le fair
      intro m member
      have inside : m ∈ W := by
        rw [← back]
        exact (a.approachFair left right).mono small member
      rw [strong_eq (a.on W) fair]
      refine ⟨a.staying_on unfairLe member.1 inside, ?_⟩
      obtain won | ⟨c, listed, forced⟩ := member.2
      · exact .inl ⟨won, inside⟩
      · -- every position on the way is winning, so nothing is lost by leaving out the others
        refine .inr ⟨c, listed, inside, a.force.mono ?_ forced⟩
        apply OrderHom.le_gfp
        intro n way
        have winning : n ∈ W := by
          have small' : (a.on W).strong (left ∩ W) (right ∩ W) ⊆ a.strong left right := whole.symm ▸ small
          have le := a.avoid_strong fair listed small' way
          rwa [whole] at le
        obtain ⟨stay, known, won⟩ := a.avoid_unfolds way
        refine ⟨⟨a.staying_on unfairLe stay winning, ?_⟩, ?_⟩
        · exact known.imp_right fun outside => ⟨⟨outside.1, winning⟩, outside.2⟩
        · exact won.imp (fun won => ⟨won, winning⟩) fun next => ⟨winning, next⟩

theorem weak_on_self : a.weak left right ⊆
    (a.on (a.weak left right)).weak (left ∩ a.weak left right) (right ∩ a.weak left right) := by
  apply OrderHom.le_gfp
  intro m member
  have unfolded := member
  rw [weak_eq] at unfolded
  exact ⟨a.staying_on a.unfair_subset_weak unfolded.1 member,
    unfolded.2.imp (fun won => ⟨won, member⟩) fun next => ⟨member, next⟩⟩

theorem wins_on_self (kind : GoalKind) (left right : Set α) :
    (a.on (a.wins kind left right)).wins kind left right = a.wins kind left right := by
  apply Set.Subset.antisymm (wins_mono (a.on_le _) kind left right)
  cases kind with
  | next =>
      intro m member
      have same := a.unfair_on (a.unfair_subset_wins .next left right)
      refine ⟨member, ?_⟩
      rw [same]
      exact member
  | strong =>
      simp only [wins, on, ← Set.inter_assoc]
      exact a.strong_on_self
  | weak =>
      simp only [wins, on, ← Set.inter_assoc]
      exact a.weak_on_self

end

section

variable {T : Set α} {F G : Set α →o Set α}

-- Within a set, the rest of a greatest fixpoint is a least one.
theorem sdiff_gfp (dual : ∀ X, X ⊆ T → T \ F X = G (T \ X)) (inside : ∀ X, F X ⊆ T) (insideToo : ∀ X, G X ⊆ T) :
    T \ OrderHom.gfp F = OrderHom.lfp G := by
  have greatest : OrderHom.gfp F ⊆ T := by
    rw [← F.map_gfp]
    exact inside _
  have least : OrderHom.lfp G ⊆ T := G.lfp_le (insideToo T)
  apply Set.Subset.antisymm
  · have large : T \ OrderHom.lfp G ⊆ OrderHom.gfp F := by
      apply F.le_gfp
      intro m member
      by_contra outside
      have lost : m ∈ T \ F (T \ OrderHom.lfp G) := ⟨member.1, outside⟩
      rw [dual _ Set.sdiff_subset, Set.sdiff_sdiff_cancel_left least, G.map_lfp] at lost
      exact member.2 lost
    rintro m ⟨here, outside⟩
    by_contra lost
    exact outside (large ⟨here, lost⟩)
  · apply G.lfp_le
    rw [← dual _ greatest, F.map_gfp]

theorem sdiff_lfp (dual : ∀ X, X ⊆ T → T \ F X = G (T \ X)) (inside : ∀ X, F X ⊆ T) (insideToo : ∀ X, G X ⊆ T) :
    T \ OrderHom.lfp F = OrderHom.gfp G := by
  have back : ∀ X, X ⊆ T → T \ G X = F (T \ X) := by
    intro X le
    have other := dual (T \ X) Set.sdiff_subset
    rw [Set.sdiff_sdiff_cancel_left le] at other
    rw [← other, Set.sdiff_sdiff_cancel_left (inside _)]
  have greatest : OrderHom.gfp G ⊆ T := by
    rw [← G.map_gfp]
    exact insideToo _
  rw [← sdiff_gfp back insideToo inside, Set.sdiff_sdiff_cancel_left greatest]

end

section

variable (a : Arena α)

def permit : Set α →o Set α where
  toFun X := a.top \ a.force (a.top \ X)
  monotone' _ _ le := Set.sdiff_subset_sdiff_right (a.force.mono (Set.sdiff_subset_sdiff_right le))

def approachable (step : Set α →o Set α) (goal : Set α) : Set α →o Set α where
  toFun y := goal ∪ step y
  monotone' _ _ le := Set.union_subset_union_right _ (step.mono le)

-- The positions from where every constraint can be met again and again.
def recurring (step : Set α →o Set α) : Set α →o Set α where
  toFun z := {m | m ∈ a.top ∧ ∀ c ∈ a.constraints, m ∈ step (OrderHom.lfp (approachable step (z ∩ c)))}
  monotone' _ _ le _ member := ⟨member.1, fun c listed => step.mono (OrderHom.lfp.mono fun y =>
    Set.union_subset_union_left (step y) (Set.inter_subset_inter_left c le)) (member.2 c listed)⟩

theorem recurring_mono {step other : Set α →o Set α} (le : step ≤ other) :
    OrderHom.gfp (a.recurring step) ⊆ OrderHom.gfp (a.recurring other) := by
  have reaches : ∀ goal : Set α, OrderHom.lfp (approachable step goal) ⊆ OrderHom.lfp (approachable other goal) := fun goal =>
    OrderHom.lfp.mono fun y => Set.union_subset_union_right goal (le y)
  refine OrderHom.gfp.mono fun z m member => ?_
  exact ⟨member.1, fun c listed => other.mono (reaches _) (le _ (member.2 c listed))⟩

theorem permit_subset_top (X : Set α) : a.permit X ⊆ a.top := Set.sdiff_subset

theorem sdiff_permit {X : Set α} : a.top \ a.permit X = a.force (a.top \ X) :=
  Set.sdiff_sdiff_cancel_left (a.force_top _)

theorem avoid_subset_top (c z : Set α) (X : Set α) : a.avoid Set.univ ∅ c z X ⊆ a.top := by
  rintro m ⟨_, none | forced⟩
  · exact none.elim
  · exact a.force_top _ forced

theorem sdiff_approachable {c z : Set α} (le : z ⊆ a.top) :
    a.top \ OrderHom.lfp (approachable a.permit (z ∩ c)) = OrderHom.gfp (a.avoid Set.univ ∅ c (a.top \ z)) := by
  refine sdiff_lfp (fun X inside => ?_) (fun X => ?_) (a.avoid_subset_top c _)
  · ext m
    show m ∈ a.top ∧ ¬ (m ∈ z ∩ c ∨ m ∈ a.permit X) ↔
      (m ∈ Set.univ ∧ (m ∈ a.top \ z ∨ m ∈ a.top \ c)) ∧ (m ∈ (∅ : Set α) ∨ m ∈ a.force (a.top \ X))
    rw [← sdiff_permit]
    simp only [Set.mem_sdiff, Set.mem_inter_iff, Set.mem_univ, Set.mem_empty_iff_false, not_or, not_and_or, false_or, true_and]
    tauto
  · exact Set.union_subset (Set.inter_subset_left.trans le) (a.permit_subset_top X)

-- Where the constraints can be met again and again, no unfair run is forced.
theorem sdiff_recurring : a.top \ OrderHom.gfp (a.recurring a.permit) = a.unfair := by
  refine sdiff_gfp (fun X le => ?_) (fun X m member => member.1) (a.escape_subset_top _ _)
  ext m
  rw [mem_escape]
  show m ∈ a.top ∧ ¬ (m ∈ a.top ∧ ∀ c ∈ a.constraints, m ∈ a.permit _) ↔ _
  simp only [← a.sdiff_approachable le, ← sdiff_permit, Set.mem_sdiff]
  constructor
  · rintro ⟨here, lost⟩
    by_contra none
    refine lost ⟨here, fun c listed => ?_⟩
    by_contra outside
    exact none ⟨c, listed, here, outside⟩
  · rintro ⟨c, listed, here, outside⟩
    exact ⟨here, fun all => outside (all.2 c listed)⟩

end

end Arena

end Coalition
