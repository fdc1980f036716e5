import Coalition.Proofs.Game.Duality

-- Constraints that hold everywhere change nothing about what is forced, won and not avoided, although without any constraint other
-- fixpoints are computed.

set_option autoImplicit false

namespace Coalition

namespace Arena

variable {α : Type} (a : Arena α) (constraints : List (Set α))

def under : Arena α := { a with constraints }

-- The other constraints are those of the arena, and some that hold everywhere; and nowhere everything is forced.
structure Neutral : Prop where
  kept : ∀ c ∈ a.constraints, c ∈ constraints
  added : ∀ c ∈ constraints, c ∈ a.constraints ∨ a.top ⊆ c
  live : a.force ∅ = ∅

variable {a constraints} {left right stay goal z : Set α}

-- A constraint that holds everywhere is harder to avoid than any other.
theorem avoid_everywhere {c d : Set α} (everywhere : a.top ⊆ c) : a.avoid stay goal c z ≤ a.avoid stay goal d z := by
  intro y
  refine Set.inter_subset_inter_left _ (Set.inter_subset_inter_right _ (Set.union_subset_union_right _ ?_))
  rw [Set.sdiff_eq_empty.mpr everywhere]
  exact Set.empty_subset _

theorem avoid_subset {c : Set α} (everywhere : a.top ⊆ c) : OrderHom.gfp (a.avoid stay goal c z) ⊆ z := fun _ member =>
  (avoid_unfolds a member).2.1.resolve_right fun outside => outside.2 (everywhere outside.1)

namespace Neutral

variable (neutral : a.Neutral constraints)

include neutral

theorem escape_eq (fair : a.constraints ≠ []) : (a.under constraints).escape = a.escape := by
  funext stay goal
  refine OrderHom.ext _ _ (funext fun z => Set.ext fun m => ⟨?_, ?_⟩)
  · rintro ⟨c, listed, forced⟩
    obtain own | everywhere := neutral.added c listed
    · exact ⟨c, own, forced⟩
    · obtain ⟨d, other⟩ := List.exists_mem_of_ne_nil _ fair
      exact ⟨d, other, a.force.mono (OrderHom.gfp.mono (avoid_everywhere everywhere)) forced⟩
  · rintro ⟨c, listed, forced⟩
    exact ⟨c, neutral.kept c listed, forced⟩

theorem everywhere (free : a.constraints = []) {c : Set α} (listed : c ∈ constraints) : a.top ⊆ c :=
  (neutral.added c listed).resolve_left (by simp [free])

theorem unfair_eq : (a.under constraints).unfair = a.unfair := by
  by_cases free : a.constraints = []
  · rw [a.unfair_empty free]
    refine Set.subset_empty_iff.mp (OrderHom.lfp_le _ ?_)
    rintro m ⟨c, listed, forced⟩
    have nothing : OrderHom.gfp (a.avoid Set.univ ∅ c ∅) ⊆ ∅ := avoid_subset (neutral.everywhere free listed)
    exact neutral.live ▸ a.force.mono nothing forced
  · exact congrArg (fun escape => OrderHom.lfp (escape Set.univ ∅)) (neutral.escape_eq free)

theorem staying_eq (left right : Set α) : (a.under constraints).staying left right = a.staying left right :=
  congrArg (right ∪ left ∪ ·) neutral.unfair_eq

theorem weak_eq (left right : Set α) : (a.under constraints).weak left right = a.weak left right := by
  have same : (a.under constraints).remain left right = a.remain left right := by
    refine OrderHom.ext _ _ (funext fun y => ?_)
    show (a.under constraints).staying left right ∩ (right ∪ a.force y) = _
    rw [neutral.staying_eq]
    rfl
  exact congrArg OrderHom.gfp same

-- Without constraints of its own the arena wins a strong until in one fixpoint, under the others in nested ones.
theorem strong_eq_free (free : a.constraints = []) (more : constraints ≠ []) :
    OrderHom.lfp ((a.under constraints).approachFair left right) = OrderHom.lfp (a.approach left right) := by
  have stays : (a.under constraints).staying left right = right ∪ left := by
    rw [neutral.staying_eq]
    show right ∪ left ∪ a.unfair = _
    rw [a.unfair_empty free, Set.union_empty]
  have round : ∀ X, (a.under constraints).approachFair left right X =
      (right ∪ left) ∩ (right ∪ (a.under constraints).escape (right ∪ left) right X) := fun X => by
    show (a.under constraints).staying left right ∩ (right ∪ (a.under constraints).escape ((a.under constraints).staying left right) right X) = _
    rw [stays]
  -- a way that avoids a neutral constraint is already a way to `right`, since the constraint holds everywhere
  apply Set.Subset.antisymm
  · apply OrderHom.lfp_le
    intro m won
    rw [round] at won
    rw [← OrderHom.map_lfp]
    obtain ⟨here | on, gained | ⟨c, listed, forced⟩⟩ := won
    · exact .inl here
    · exact .inl here
    · exact .inl gained
    · exact .inr ⟨on, a.force.mono (avoid_subset (neutral.everywhere free listed)) forced⟩
  · apply OrderHom.lfp_le
    obtain ⟨c, listed⟩ := List.exists_mem_of_ne_nil _ more
    have won : OrderHom.lfp ((a.under constraints).approachFair left right) =
        (a.under constraints).approachFair left right (OrderHom.lfp ((a.under constraints).approachFair left right)) :=
      (OrderHom.map_lfp _).symm
    generalize OrderHom.lfp ((a.under constraints).approachFair left right) = W at won ⊢
    rw [round] at won
    have avoids : W ⊆ OrderHom.gfp (a.avoid (right ∪ left) right c W) := by
      refine OrderHom.le_gfp _ fun m member => ?_
      have unfolded := member
      rw [won] at unfolded
      obtain ⟨on, here | ⟨d, other, forced⟩⟩ := unfolded
      · exact ⟨⟨on, .inl member⟩, .inl here⟩
      · exact ⟨⟨on, .inl member⟩, .inr (a.force.mono (avoid_subset (neutral.everywhere free other)) forced)⟩
    rintro m (here | ⟨on, forced⟩)
    · rw [won]
      exact ⟨.inl here, .inl here⟩
    · rw [won]
      exact ⟨.inr on, .inr ⟨c, listed, a.force.mono avoids forced⟩⟩

theorem strong_eq (left right : Set α) : (a.under constraints).strong left right = a.strong left right := by
  unfold strong
  by_cases free : a.constraints = []
  · rw [if_pos (List.isEmpty_iff.mpr free)]
    by_cases none : constraints = []
    · rw [if_pos (show (a.under constraints).constraints.isEmpty = true from List.isEmpty_iff.mpr none)]
      rfl
    · rw [if_neg (show ¬ (a.under constraints).constraints.isEmpty = true from fun empty => none (List.isEmpty_iff.mp empty))]
      exact neutral.strong_eq_free free none
  · have more : constraints ≠ [] := by
      obtain ⟨d, other⟩ := List.exists_mem_of_ne_nil _ free
      exact List.ne_nil_of_mem (neutral.kept d other)
    rw [if_neg (show ¬ (a.under constraints).constraints.isEmpty = true from fun empty => more (List.isEmpty_iff.mp empty)),
      if_neg fun empty => free (List.isEmpty_iff.mp empty)]
    have same : (a.under constraints).approachFair left right = a.approachFair left right := by
      refine OrderHom.ext _ _ (funext fun z => ?_)
      show (a.under constraints).staying left right ∩
        (right ∪ (a.under constraints).escape ((a.under constraints).staying left right) right z) = _
      rw [neutral.staying_eq, neutral.escape_eq free]
      rfl
    rw [same]

theorem wins_eq (kind : GoalKind) (left right : Set α) : (a.under constraints).wins kind left right = a.wins kind left right := by
  cases kind with
  | next => exact congrArg (fun unfair => a.force (right ∪ unfair)) neutral.unfair_eq
  | strong => exact neutral.strong_eq _ _
  | weak => exact neutral.weak_eq _ _

theorem permits_eq (kind : GoalKind) (leftLe : left ⊆ a.top) (rightLe : right ⊆ a.top) :
    (a.under constraints).permits kind left right = a.permits kind left right := by
  cases kind with
  | next =>
      show (a.under constraints).permitNext right = a.permitNext right
      rw [permit_next_dual, permit_next_dual]
      exact congrArg (a.top \ ·) (neutral.wins_eq .next ∅ _)
  | strong =>
      show (a.under constraints).permitStrong left right = a.permitStrong left right
      rw [permit_strong_dual leftLe rightLe, @permit_strong_dual _ (a.under constraints) left right leftLe rightLe]
      exact congrArg (a.top \ ·) (neutral.weak_eq _ _)
  | weak =>
      show (a.under constraints).permitWeak left right = a.permitWeak left right
      rw [permit_weak_dual leftLe rightLe, @permit_weak_dual _ (a.under constraints) left right leftLe rightLe]
      exact congrArg (a.top \ ·) (neutral.strong_eq _ _)

end Neutral

end Arena

end Coalition
