import Mathlib.SetTheory.Ordinal.FixedPointApproximants
import Coalition.Proofs.Game.Arena

-- Contests: arenas where a move has to be chosen in every position.

set_option autoImplicit false

namespace Coalition

-- The stages of a least fixpoint: everything in it comes from what has a lower rank.
theorem exists_rank {α : Type} (F : Set α →o Set α) : ∃ rank : α → Ordinal.{0},
    (∀ s ∈ OrderHom.lfp F, s ∈ F {u | u ∈ OrderHom.lfp F ∧ rank u < rank s}) ∧
    ∀ s b, s ∈ F {u | u ∈ OrderHom.lfp F ∧ rank u < b} → s ∈ OrderHom.lfp F ∧ rank s ≤ b := by
  let stage : Ordinal.{0} → Set α := OrdinalApprox.lfpApprox F ⊥
  let rank : α → Ordinal.{0} := fun s => sInf {b | s ∈ F (stage b)}
  have below : ∀ b, stage b ⊆ OrderHom.lfp F := fun b => by
    exact OrdinalApprox.lfpApprox_le_of_mem_fixedPoints F F.map_lfp bot_le b
  have starts : ∀ s ∈ OrderHom.lfp F, s ∈ F (stage (rank s)) := by
    intro s member
    apply csInf_mem (s := {b | s ∈ F (stage b)})
    refine ⟨(Order.succ (Cardinal.mk (Set α))).ord, ?_⟩
    show s ∈ F (OrdinalApprox.lfpApprox F ⊥ _)
    rwa [OrdinalApprox.lfpApprox_ord_eq_lfp, F.map_lfp]
  have stages : ∀ b, stage b = {u | u ∈ OrderHom.lfp F ∧ rank u < b} := by
    intro b
    ext u
    constructor
    · intro member
      refine ⟨below b member, ?_⟩
      rw [show stage b = OrdinalApprox.lfpApprox F ⊥ b from rfl, OrdinalApprox.lfpApprox] at member
      simp only [Set.bot_eq_empty, Set.sup_eq_union, Set.empty_union, Set.iSup_eq_iUnion, Set.mem_iUnion] at member
      obtain ⟨earlier, less, member⟩ := member
      exact lt_of_le_of_lt (csInf_le' member) less
    · rintro ⟨member, less⟩
      exact OrdinalApprox.apply_lfpApprox_le_lfpApprox_of_lt F less (starts u member)
  refine ⟨rank, fun s member => ?_, fun s b member => ?_⟩
  · rw [← stages]
    exact starts s member
  · rw [← stages] at member
    refine ⟨?_, csInf_le' member⟩
    rw [← F.map_lfp]
    exact F.mono (below b) member

-- Positions with a choice of moves, each leading into some sets whatever the others do.
structure Contest (α ι : Type) where
  top : Set α
  leads : ι → Set α →o Set α
  constraints : List (Set α)
  leads_top : ∀ i X, leads i X ⊆ top

namespace Contest

variable {α ι : Type} (c : Contest α ι)

def arena : Arena α where
  top := c.top
  force := ⟨fun X => {s | ∃ i, s ∈ c.leads i X}, fun _ _ le _ ⟨i, member⟩ => ⟨i, (c.leads i).mono le member⟩⟩
  constraints := c.constraints
  force_top X _ := fun ⟨i, member⟩ => c.leads_top i X member

def fixing (choice : α → ι) : Arena α where
  top := c.top
  force := ⟨fun X => {s | s ∈ c.leads (choice s) X}, fun _ _ le _ member => (c.leads _).mono le member⟩
  constraints := c.constraints
  force_top X _ := fun member => c.leads_top _ X member

theorem fixing_le (choice : α → ι) : Arena.Le (c.fixing choice) c.arena :=
  ⟨Set.Subset.refl _, fun _ s member => ⟨choice s, member⟩, rfl⟩

end Contest

namespace Arena

variable {α : Type}

variable {a : Arena α} {stay goal z : Set α}

theorem pursue_everywhere : a.pursue Set.univ ∅ = a.escape Set.univ ∅ :=
  OrderHom.ext _ _ (funext fun z => by show Set.univ ∩ (∅ ∪ a.escape Set.univ ∅ z) = _; simp)

theorem strong_pursues {left right : Set α} (fair : a.constraints.isEmpty = false) :
    a.strong left right = OrderHom.lfp (a.pursue (a.staying left right) right) := by
  unfold strong
  rw [fair]
  rfl

theorem avoid_pursued (closed : a.pursue stay goal z ⊆ z) {d : Set α} (listed : d ∈ a.constraints) :
    OrderHom.gfp (a.avoid stay goal d z) ⊆ z := by
  intro m member
  obtain ⟨here, _, won | forced⟩ := a.avoid_unfolds member
  · exact closed ⟨here, .inl won⟩
  · exact closed ⟨here, .inr ⟨d, listed, forced⟩⟩

end Arena

namespace Contest

variable {α ι : Type} {c : Contest α ι}

-- A choice that descends: a choice that follows it wherever `z` is not won yet wins all that can be pursued.
theorem exists_descent [Nonempty ι] (stay goal : Set α) : ∃ choice : α → ι, ∀ (other : α → ι) (wider z : Set α), stay ⊆ wider →
    (c.fixing other).pursue wider goal z = z → (∀ s ∈ OrderHom.lfp (c.arena.pursue stay goal), s ∉ z → other s = choice s) →
    OrderHom.lfp (c.arena.pursue stay goal) ⊆ z := by
  classical
  generalize whole : OrderHom.lfp (c.arena.pursue stay goal) = W
  obtain ⟨rank, falls, rises⟩ := exists_rank (c.arena.pursue stay goal)
  rw [whole] at falls rises
  -- the positions on the way to a lower rank that avoids the constraint in a place of the list
  let avoided : Nat → Set α := fun k => c.constraints[k]?.getD ∅
  let way : Nat → Ordinal.{0} → Set α := fun k b => OrderHom.gfp (c.arena.avoid stay goal (avoided k) {u | u ∈ W ∧ rank u < b})
  let serves : α → Nat → Prop := fun s k => avoided k ∈ c.constraints ∧ s ∈ c.arena.force (way k (rank s))
  have served : ∀ s ∈ W, s ∉ goal → ∃ k, serves s k := by
    intro s member notGoal
    obtain ⟨_, won | ⟨d, listed, forced⟩⟩ := falls s member
    · exact absurd won notGoal
    · obtain ⟨k, bound, same⟩ := List.getElem_of_mem (l := c.constraints) listed
      have here : avoided k = d := by simp only [avoided, List.getElem?_eq_getElem bound, Option.getD_some, same]
      exact ⟨k, here ▸ listed, by rw [← here] at forced; exact forced⟩
  have picked : ∀ s, ∃ (k : Nat) (i : ι), s ∈ W → s ∉ goal →
      avoided k ∈ c.constraints ∧ s ∈ c.leads i (way k (rank s)) ∧ ∀ j, serves s j → k ≤ j := by
    intro s
    by_cases both : s ∈ W ∧ s ∉ goal
    · obtain ⟨listed, i, leads⟩ := Nat.find_spec (served s both.1 both.2)
      exact ⟨_, i, fun _ _ => ⟨listed, leads, fun j serves => Nat.find_min' _ serves⟩⟩
    · exact ⟨0, Classical.arbitrary ι, fun member notGoal => absurd ⟨member, notGoal⟩ both⟩
  choose place choice spec using picked
  refine ⟨choice, fun other wider z le fixed follows => ?_⟩
  have won : stay ∩ goal ⊆ z := fun s both => fixed.le ⟨le both.1, .inl both.2⟩
  have notGoal : ∀ u ∈ W, u ∉ z → u ∉ goal := fun u member lost reached => lost (won ⟨(falls u member).1, reached⟩)
  suffices all : ∀ (b : Ordinal.{0}) (k : Nat), ∀ s ∈ W, rank s = b → place s = k → s ∈ z from fun s member => all _ _ s member rfl rfl
  intro b
  induction b using WellFoundedLT.induction with | ind b lower =>
  intro k
  induction k using Nat.strong_induction_on with | h k earlier =>
  intro s member ranked placed
  by_contra lost
  obtain ⟨listed, leads, _⟩ := spec s member (notGoal s member lost)
  rw [ranked, placed] at leads
  rw [placed] at listed
  -- outside `z` the way keeps its rank and its constraint
  have kept : way k b ⊆ OrderHom.gfp ((c.fixing other).avoid wider goal (avoided k) z) := by
    refine Set.Subset.trans Set.subset_union_right (OrderHom.le_gfp _ (a := z ∪ way k b) fun u either => ?_)
    by_cases inside : u ∈ z
    · have unfolded := fixed.ge inside
      refine ⟨⟨unfolded.1, .inl inside⟩, unfolded.2.imp_right ?_⟩
      rintro ⟨d, known, forced⟩
      exact (c.fixing other).force.mono ((Arena.avoid_pursued fixed.le known).trans Set.subset_union_left) forced
    · obtain ⟨stays, near, next⟩ := c.arena.avoid_unfolds (either.resolve_left inside)
      have forced : u ∈ c.arena.force (way k b) := next.resolve_left fun reached => inside (won ⟨stays, reached⟩)
      obtain ⟨uMember, uRank⟩ := rises u b ⟨stays, .inr ⟨_, listed, forced⟩⟩
      have same : rank u = b := by
        by_contra different
        exact inside (lower (rank u) (lt_of_le_of_ne uRank different) (place u) u uMember rfl rfl)
      obtain ⟨_, uLeads, first⟩ := spec u uMember (notGoal u uMember inside)
      have uPlace : place u = k := by
        by_contra different
        have most := first k ⟨listed, same ▸ forced⟩
        exact inside (earlier (place u) (lt_of_le_of_ne most different) u uMember same rfl)
      rw [same, uPlace] at uLeads
      refine ⟨⟨le stays, .inr (near.resolve_left fun there => absurd there.2 (not_lt.mpr same.ge))⟩, .inr ?_⟩
      show u ∈ c.leads (other u) (z ∪ way k b)
      rw [follows u uMember inside]
      exact (c.leads _).mono Set.subset_union_right uLeads
  refine lost (fixed.le ⟨le (falls s member).1, .inr ⟨_, listed, ?_⟩⟩)
  show s ∈ c.leads (other s) _
  rw [follows s member lost]
  exact (c.leads _).mono kept leads

theorem exists_approach [Nonempty ι] (left right : Set α) : ∃ choice : α → ι,
    OrderHom.lfp (c.arena.approach left right) ⊆ OrderHom.lfp ((c.fixing choice).approach left right) := by
  obtain ⟨rank, falls, _⟩ := exists_rank (c.arena.approach left right)
  generalize whole : OrderHom.lfp (c.arena.approach left right) = W at falls
  have picked : ∀ s, ∃ i : ι, s ∈ W → s ∉ right → s ∈ left ∧ s ∈ c.leads i {u | u ∈ W ∧ rank u < rank s} := by
    intro s
    by_cases both : s ∈ W ∧ s ∉ right
    · obtain ⟨on, i, leads⟩ := (falls s both.1).resolve_left both.2
      exact ⟨i, fun _ _ => ⟨on, leads⟩⟩
    · exact ⟨Classical.arbitrary ι, fun member notRight => absurd ⟨member, notRight⟩ both⟩
  choose choice spec using picked
  refine ⟨choice, fun s member => ?_⟩
  induction ranked : rank s using WellFoundedLT.induction generalizing s with | ind b lower =>
  rw [← OrderHom.map_lfp]
  by_cases reached : s ∈ right
  · exact .inl reached
  · obtain ⟨on, leads⟩ := spec s member reached
    refine .inr ⟨on, (c.leads _).mono ?_ leads⟩
    rintro u ⟨uMember, less⟩
    exact lower (rank u) (ranked ▸ less) u uMember rfl

theorem exists_unfair [Nonempty ι] (c : Contest α ι) : ∃ choice : α → ι, ∀ other : α → ι,
    (∀ s ∈ c.arena.unfair, other s = choice s) → c.arena.unfair ⊆ (c.fixing other).unfair := by
  obtain ⟨choice, descends⟩ := @exists_descent α ι c _ Set.univ ∅
  simp only [Arena.pursue_everywhere] at descends
  exact ⟨choice, fun other follows => descends other Set.univ _ (Set.Subset.refl _)
    (by rw [Arena.pursue_everywhere]; exact Arena.unfair_eq _) fun s member _ => follows s member⟩

open Classical in
noncomputable def mixed (set : Set α) (first second : α → ι) : α → ι := fun s => if s ∈ set then first s else second s

theorem mixed_inside {set : Set α} {first second : α → ι} {s : α} (member : s ∈ set) : mixed set first second s = first s :=
  if_pos member

theorem mixed_outside {set : Set α} {first second : α → ι} {s : α} (outside : s ∉ set) : mixed set first second s = second s :=
  if_neg outside

section

variable [Nonempty ι] (c) (left right : Set α)

-- Given a choice for unfair runs, a second one for the rest wins a strong until.
theorem exists_strong : ∃ choice : α → ι, c.arena.strong left right ⊆ (c.fixing choice).strong left right := by
  cases free : c.constraints.isEmpty with
  | true =>
      obtain ⟨choice, approaches⟩ := @exists_approach α ι c _ left right
      have approached : ∀ {a : Arena α}, a.constraints = c.constraints →
          a.strong left right = OrderHom.lfp (a.approach left right) := fun same => if_pos (same ▸ free)
      refine ⟨choice, ?_⟩
      rw [approached rfl, approached rfl]
      exact approaches
  | false =>
      obtain ⟨first, unfair⟩ := c.exists_unfair
      obtain ⟨second, descends⟩ := @exists_descent α ι c _ (c.arena.staying left right) right
      refine ⟨mixed c.arena.unfair first second, ?_⟩
      generalize known : mixed c.arena.unfair first second = choice
      have kept : c.arena.unfair ⊆ (c.fixing choice).unfair := unfair choice fun s member => known ▸ mixed_inside member
      have stays : c.arena.staying left right ⊆ (c.fixing choice).staying left right := Set.union_subset_union_right _ kept
      have pursued : (c.fixing choice).strong left right =
          OrderHom.lfp ((c.fixing choice).pursue ((c.fixing choice).staying left right) right) := Arena.strong_pursues free
      rw [Arena.strong_pursues (a := c.arena) free]
      refine descends choice _ _ stays (by rw [pursued, OrderHom.map_lfp]) fun s _ lost => ?_
      rw [← known, mixed_outside fun bad => lost (Arena.unfair_subset_strong _ (kept bad))]

theorem exists_weak : ∃ choice : α → ι, c.arena.weak left right ⊆ (c.fixing choice).weak left right := by
  obtain ⟨first, unfair⟩ := c.exists_unfair
  have picked : ∀ s, ∃ i : ι, s ∈ c.arena.weak left right → s ∉ right → s ∈ c.leads i (c.arena.weak left right) := by
    intro s
    by_cases both : s ∈ c.arena.weak left right ∧ s ∉ right
    · have unfolded := both.1
      rw [Arena.weak_eq] at unfolded
      obtain ⟨i, leads⟩ := unfolded.2.resolve_left both.2
      exact ⟨i, fun _ _ => leads⟩
    · exact ⟨Classical.arbitrary ι, fun member notRight => absurd ⟨member, notRight⟩ both⟩
  choose second spec using picked
  refine ⟨mixed c.arena.unfair first second, ?_⟩
  generalize known : mixed c.arena.unfair first second = choice
  have kept : c.arena.unfair ⊆ (c.fixing choice).unfair := unfair choice fun s member => known ▸ mixed_inside member
  refine Set.Subset.trans Set.subset_union_left (OrderHom.le_gfp _ (a := c.arena.weak left right ∪ (c.fixing choice).unfair) ?_)
  intro s place
  by_cases bad : s ∈ (c.fixing choice).unfair
  · exact ⟨.inr bad, .inr ((c.fixing choice).force.mono Set.subset_union_right (Arena.unfair_forces _ bad))⟩
  · have member := place.resolve_right bad
    have unfolded := member
    rw [Arena.weak_eq] at unfolded
    refine ⟨Set.union_subset_union_right _ kept unfolded.1, ?_⟩
    by_cases reached : s ∈ right
    · exact .inl reached
    · refine .inr ?_
      show s ∈ c.leads (choice s) _
      rw [← known, mixed_outside fun listed => bad (kept listed)]
      exact (c.leads _).mono Set.subset_union_left (spec s member reached)

theorem exists_next : ∃ choice : α → ι, c.arena.next right ⊆ (c.fixing choice).next right := by
  obtain ⟨first, unfair⟩ := c.exists_unfair
  have picked : ∀ s, ∃ i : ι, s ∈ c.arena.next right → s ∈ c.leads i (right ∪ c.arena.unfair) := by
    intro s
    by_cases member : s ∈ c.arena.next right
    · obtain ⟨i, leads⟩ := member
      exact ⟨i, fun _ => leads⟩
    · exact ⟨Classical.arbitrary ι, fun here => absurd here member⟩
  choose second spec using picked
  refine ⟨mixed c.arena.unfair first second, fun s member => ?_⟩
  generalize known : mixed c.arena.unfair first second = choice
  have kept : c.arena.unfair ⊆ (c.fixing choice).unfair := unfair choice fun s member => known ▸ mixed_inside member
  by_cases bad : s ∈ c.arena.unfair
  · exact (c.fixing choice).force.mono Set.subset_union_right (Arena.unfair_forces _ (kept bad))
  · show s ∈ c.leads (choice s) _
    rw [← known, mixed_outside bad, known]
    exact (c.leads _).mono (Set.union_subset_union_right _ kept) (spec s member)

-- One fixed choice wins from everywhere anything wins.
theorem exists_positional (kind : GoalKind) :
    ∃ choice : α → ι, (c.fixing choice).wins kind left right = c.arena.wins kind left right := by
  have enough : (∃ choice : α → ι, c.arena.wins kind left right ⊆ (c.fixing choice).wins kind left right) →
      ∃ choice : α → ι, (c.fixing choice).wins kind left right = c.arena.wins kind left right := by
    rintro ⟨choice, le⟩
    exact ⟨choice, Set.Subset.antisymm (Arena.wins_mono (c.fixing_le choice) _ _ _) le⟩
  apply enough
  cases kind with
  | next => exact c.exists_next right
  | strong => exact c.exists_strong _ _
  | weak => exact c.exists_weak _ _

end

end Contest

end Coalition
