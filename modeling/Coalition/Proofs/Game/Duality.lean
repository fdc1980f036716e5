import Coalition.Proofs.Game.Arena

-- A goal cannot be avoided exactly from where the opposite goal cannot be forced.

set_option autoImplicit false

namespace Coalition

namespace Arena

variable {α : Type} (a : Arena α)

-- The goal, and the positions of `body` from where what is given cannot be kept off.
def attract (goal body : Set α) : Set α →o Set α where
  toFun y := goal ∪ body ∩ a.permit y
  monotone' _ _ le := Set.union_subset_union_right _ (Set.inter_subset_inter_right _ (a.permit.mono le))

-- The goal, and the positions of `body` from where every constraint can be met again, or the goal.
def recur (goal body : Set α) : Set α →o Set α where
  toFun z := goal ∪ {m | m ∈ body ∧ ∀ c ∈ a.constraints, m ∈ a.permit (OrderHom.lfp (a.attract (goal ∪ z ∩ c) body))}
  monotone' _ _ le := Set.union_subset_union_right _ fun _ member => ⟨member.1, fun c listed => a.permit.mono
    (OrderHom.lfp.mono fun _ => Set.union_subset_union_left _ (Set.union_subset_union_right _ (Set.inter_subset_inter_left c le)))
    (member.2 c listed)⟩

def sound : Set α := a.top \ a.unfair

def permitNext (right : Set α) : Set α := a.permit (right ∩ a.sound)

def permitStrong (left right : Set α) : Set α := OrderHom.lfp (a.attract (right ∩ a.sound) left)

def permitWeak (left right : Set α) : Set α :=
  if a.constraints.isEmpty then OrderHom.gfp (a.attract right left) else OrderHom.gfp (a.recur (right ∩ a.sound) left)

-- From where a goal cannot be avoided.
def permits (kind : GoalKind) (left right : Set α) : Set α :=
  match kind with
  | .next => a.permitNext right
  | .strong => a.permitStrong left right
  | .weak => a.permitWeak left right

variable {a} {left right goal goal' body body' : Set α}

theorem attract_mono (goalLe : goal ⊆ goal') (bodyLe : body ⊆ body') : a.attract goal body ≤ a.attract goal' body' :=
  fun _ => Set.union_subset_union goalLe (Set.inter_subset_inter_left _ bodyLe)

theorem recur_mono (bodyLe : body ⊆ body') : a.recur goal body ≤ a.recur goal body' := by
  intro z
  refine Set.union_subset_union_right _ ?_
  exact fun m member => ⟨bodyLe member.1, fun c listed => a.permit.mono (OrderHom.lfp.mono (attract_mono (Set.Subset.refl _) bodyLe))
    (member.2 c listed)⟩

theorem sdiff_sound : a.top \ a.sound = a.unfair := Set.sdiff_sdiff_cancel_left a.unfair_subset_top

theorem permit_sound : a.permit a.sound ⊆ a.sound := by
  rintro m ⟨here, escapes⟩
  rw [sdiff_sound] at escapes
  exact ⟨here, fun bad => escapes (a.unfair_forces bad)⟩

theorem attract_sound (goalLe : goal ⊆ a.sound) : OrderHom.lfp (a.attract goal body) ⊆ a.sound := by
  apply OrderHom.lfp_le
  exact Set.union_subset goalLe (Set.inter_subset_right.trans permit_sound)

theorem attract_goal (goalLe : goal ⊆ a.sound) {extra : Set α} (rest : extra ∩ a.sound ⊆ goal) :
    OrderHom.lfp (a.attract goal (body ∪ extra)) = OrderHom.lfp (a.attract goal body) := by
  apply Set.Subset.antisymm
  · apply OrderHom.lfp_le
    rintro m (won | ⟨on | more, kept⟩)
    · rw [← OrderHom.map_lfp]
      exact .inl won
    · rw [← OrderHom.map_lfp]
      exact .inr ⟨on, kept⟩
    · have inside : m ∈ a.sound := permit_sound (a.permit.mono (attract_sound goalLe) kept)
      rw [← OrderHom.map_lfp]
      exact .inl (rest ⟨more, inside⟩)
  · exact OrderHom.lfp.mono (attract_mono (Set.Subset.refl _) Set.subset_union_left)

theorem recur_goal (goalLe : goal ⊆ a.sound) {extra : Set α} (rest : extra ∩ a.sound ⊆ goal)
    (inside : OrderHom.gfp (a.recur goal (body ∪ extra)) ⊆ a.sound) :
    OrderHom.gfp (a.recur goal (body ∪ extra)) = OrderHom.gfp (a.recur goal body) := by
  refine Set.Subset.antisymm (OrderHom.le_gfp _ fun m member => ?_) (OrderHom.gfp.mono (recur_mono Set.subset_union_left))
  have unfolded := member
  rw [← OrderHom.map_gfp] at unfolded
  obtain won | ⟨on | more, again⟩ := unfolded
  · exact .inl won
  · refine .inr ⟨on, fun c listed => ?_⟩
    have met := again c listed
    rwa [attract_goal (Set.union_subset goalLe (Set.inter_subset_left.trans inside)) (rest.trans Set.subset_union_left)] at met
  · exact .inl (rest ⟨more, inside member⟩)

-- Everywhere, without a goal, constraints can be met again exactly where no unfair run is forced.
theorem recur_everywhere : OrderHom.gfp (a.recur ∅ a.top) = a.sound := by
  have attracts : ∀ c z : Set α, a.attract (∅ ∪ z ∩ c) a.top = approachable a.permit (z ∩ c) := by
    refine fun c z => OrderHom.ext _ _ (funext fun y => ?_)
    show (∅ ∪ z ∩ c) ∪ a.top ∩ a.permit y = z ∩ c ∪ a.permit y
    rw [Set.empty_union, Set.inter_eq_right.mpr (a.permit_subset_top y)]
  have same : a.recur ∅ a.top = a.recurring a.permit := by
    refine OrderHom.ext _ _ (funext fun z => ?_)
    show ∅ ∪ {m | m ∈ a.top ∧ ∀ c ∈ a.constraints, m ∈ a.permit (OrderHom.lfp (a.attract (∅ ∪ z ∩ c) a.top))} = _
    rw [Set.empty_union]
    simp only [attracts]
    rfl
  have inside : OrderHom.gfp (a.recurring a.permit) ⊆ a.top := by
    rw [← OrderHom.map_gfp]
    exact fun m member => member.1
  rw [same, sound, ← a.sdiff_recurring, Set.sdiff_sdiff_cancel_left inside]

theorem permit_next_dual : a.permitNext right = a.top \ a.next (a.top \ right) := by
  have rest : a.top \ (right ∩ a.sound) = a.top \ right ∪ a.unfair := by rw [Set.sdiff_inter, sdiff_sound]
  show a.top \ a.force (a.top \ (right ∩ a.sound)) = _
  rw [rest]
  rfl

theorem staying_opposite : a.staying (a.top \ right) ((a.top \ left) ∩ (a.top \ right)) = a.top \ (right ∩ a.sound) := by
  unfold staying
  rw [Set.union_eq_self_of_subset_left Set.inter_subset_right, Set.sdiff_inter, sdiff_sound]

theorem sdiff_force {X : Set α} (le : X ⊆ a.top) : a.top \ a.force X = a.permit (a.top \ X) := by
  show _ = a.top \ a.force (a.top \ (a.top \ X))
  rw [Set.sdiff_sdiff_cancel_left le]

theorem sdiff_opposite {T G X : Set α} (goalLe : G ⊆ T) (leftLe : left ⊆ T) (rightLe : right ⊆ T) :
    T \ ((T \ G) ∩ ((T \ left) ∩ (T \ right) ∪ X)) = G ∪ (left ∪ right) ∩ (T \ X) := by
  rw [Set.sdiff_inter, Set.sdiff_sdiff_cancel_left goalLe, Set.sdiff_inter_sdiff, ← Set.sdiff_inter_sdiff,
    Set.sdiff_sdiff_cancel_left (Set.union_subset leftLe rightLe)]

section

variable (leftLe : left ⊆ a.top) (rightLe : right ⊆ a.top)

include leftLe rightLe

theorem attract_top (goalLe : goal ⊆ a.top) (X : Set α) : a.attract goal (left ∪ right) X ⊆ a.top :=
  Set.union_subset goalLe (Set.inter_subset_left.trans (Set.union_subset leftLe rightLe))

theorem permit_strong_dual : a.permitStrong left right = a.top \ a.weak (a.top \ right) ((a.top \ left) ∩ (a.top \ right)) := by
  have goalLe : right ∩ a.sound ⊆ a.top := Set.inter_subset_left.trans rightLe
  have opposite : a.top \ a.weak (a.top \ right) ((a.top \ left) ∩ (a.top \ right)) =
      OrderHom.lfp (a.attract (right ∩ a.sound) (left ∪ right)) := by
    refine sdiff_gfp (fun X le => ?_) (fun X => ?_) (attract_top leftLe rightLe goalLe)
    · show a.top \ (a.staying _ _ ∩ ((a.top \ left) ∩ (a.top \ right) ∪ a.force X)) = _
      rw [staying_opposite, sdiff_opposite goalLe leftLe rightLe, sdiff_force le]
      rfl
    · exact Set.inter_subset_left.trans (staying_opposite.le.trans Set.sdiff_subset)
  rw [opposite]
  exact (attract_goal Set.inter_subset_right (Set.Subset.refl _)).symm

theorem sdiff_avoid {z c : Set α} (le : z ⊆ a.top) :
    a.top \ OrderHom.gfp (a.avoid (a.top \ (right ∩ a.sound)) ((a.top \ left) ∩ (a.top \ right)) c (a.top \ z)) =
      OrderHom.lfp (a.attract (right ∩ a.sound ∪ z ∩ c) (left ∪ right)) := by
  have goalLe : right ∩ a.sound ∪ z ∩ c ⊆ a.top :=
    Set.union_subset (Set.inter_subset_left.trans rightLe) (Set.inter_subset_left.trans le)
  refine sdiff_gfp (fun X inside => ?_) (fun X => ?_) (attract_top leftLe rightLe goalLe)
  · show a.top \ ((a.top \ (right ∩ a.sound) ∩ (a.top \ z ∪ a.top \ c)) ∩ _) = _
    rw [← Set.sdiff_inter, Set.sdiff_inter_sdiff]
    exact (sdiff_opposite goalLe leftLe rightLe).trans (by rw [sdiff_force inside]; rfl)
  · exact Set.inter_subset_left.trans (Set.inter_subset_left.trans Set.sdiff_subset)

theorem permit_weak_dual_free (free : a.constraints.isEmpty = true) :
    a.permitWeak left right = a.top \ a.strong (a.top \ right) ((a.top \ left) ∩ (a.top \ right)) := by
  have opposite : a.top \ OrderHom.lfp (a.approach (a.top \ right) ((a.top \ left) ∩ (a.top \ right))) =
      OrderHom.gfp (a.attract right left) := by
    refine sdiff_lfp (fun X le => ?_) (fun X => ?_) (fun X => ?_)
    · calc a.top \ ((a.top \ left) ∩ (a.top \ right) ∪ (a.top \ right) ∩ a.force X)
          = (right ∪ left) ∩ (right ∪ a.top \ a.force X) := by
            rw [Set.sdiff_inter_sdiff, ← Set.sdiff_inter_sdiff (t := a.top \ (left ∪ right)),
              Set.sdiff_sdiff_cancel_left (Set.union_subset leftLe rightLe), Set.sdiff_inter, Set.sdiff_sdiff_cancel_left rightLe,
              Set.union_comm left right]
        _ = right ∪ left ∩ a.permit (a.top \ X) := by rw [← Set.union_inter_distrib_left, sdiff_force le]
    · exact Set.union_subset (Set.inter_subset_left.trans Set.sdiff_subset) (Set.inter_subset_left.trans Set.sdiff_subset)
    · exact Set.union_subset rightLe (Set.inter_subset_left.trans leftLe)
  unfold permitWeak strong
  rw [if_pos free, if_pos free, opposite]

theorem permit_weak_dual_fair (fair : a.constraints.isEmpty = false) :
    a.permitWeak left right = a.top \ a.strong (a.top \ right) ((a.top \ left) ∩ (a.top \ right)) := by
  have goalLe : right ∩ a.sound ⊆ a.top := Set.inter_subset_left.trans rightLe
  have weak : a.permitWeak left right = OrderHom.gfp (a.recur (right ∩ a.sound) left) := if_neg (by simp [fair])
  have strong : a.strong (a.top \ right) ((a.top \ left) ∩ (a.top \ right)) =
      OrderHom.lfp (a.approachFair (a.top \ right) ((a.top \ left) ∩ (a.top \ right))) := if_neg (by simp [fair])
  have met : ∀ X ⊆ a.top, a.top \ a.escape (a.top \ (right ∩ a.sound)) ((a.top \ left) ∩ (a.top \ right)) X =
      {m | m ∈ a.top ∧ ∀ c ∈ a.constraints,
        m ∈ a.permit (OrderHom.lfp (a.attract (right ∩ a.sound ∪ (a.top \ X) ∩ c) (left ∪ right)))} := by
    intro X le
    ext m
    show m ∈ a.top ∧ ¬ (∃ c ∈ a.constraints, _) ↔ _
    push Not
    refine and_congr_right fun here => forall₂_congr fun c listed => ?_
    rw [← sdiff_avoid leftLe rightLe Set.sdiff_subset, Set.sdiff_sdiff_cancel_left le, ← sdiff_force fun n inside =>
      (a.avoid_unfolds inside).1.1]
    exact (and_iff_right here).symm
  have opposite : a.top \ OrderHom.lfp (a.approachFair (a.top \ right) ((a.top \ left) ∩ (a.top \ right))) =
      OrderHom.gfp (a.recur (right ∩ a.sound) (left ∪ right)) := by
    refine sdiff_lfp (fun X le => ?_) (fun X => ?_) (fun X => ?_)
    · show a.top \ (a.staying _ _ ∩ ((a.top \ left) ∩ (a.top \ right) ∪ a.escape (a.staying _ _) _ X)) = _
      rw [staying_opposite, sdiff_opposite goalLe leftLe rightLe, met X le]
      refine congrArg (right ∩ a.sound ∪ ·) (Set.ext fun m => ?_)
      exact ⟨fun both => ⟨both.1, both.2.2⟩, fun both => ⟨both.1, Set.union_subset leftLe rightLe both.1, both.2⟩⟩
    · exact Set.inter_subset_left.trans (staying_opposite.le.trans Set.sdiff_subset)
    · exact Set.union_subset goalLe fun m member => Set.union_subset leftLe rightLe member.1
  have inside : OrderHom.gfp (a.recur (right ∩ a.sound) (left ∪ right)) ⊆ a.sound := by
    rw [← opposite, ← strong]
    exact Set.sdiff_subset_sdiff_right a.unfair_subset_strong
  rw [weak, strong, opposite]
  exact (recur_goal Set.inter_subset_right (Set.Subset.refl _) inside).symm

theorem permit_weak_dual : a.permitWeak left right = a.top \ a.strong (a.top \ right) ((a.top \ left) ∩ (a.top \ right)) := by
  cases fair : a.constraints.isEmpty with
  | true => exact permit_weak_dual_free leftLe rightLe fair
  | false => exact permit_weak_dual_fair leftLe rightLe fair

-- An until cannot be avoided from where the opposite one cannot be forced: the weak one for a strong one, and the other way round.
theorem permits_until_dual :
    a.permits .strong left right = a.top \ a.wins .weak (a.top \ right) ((a.top \ left) ∩ (a.top \ right)) ∧
      a.permits .weak left right = a.top \ a.wins .strong (a.top \ right) ((a.top \ left) ∩ (a.top \ right)) := by
  have operand : ∀ X : Set α, (a.top \ X) ∩ a.top = a.top \ X := fun X => Set.inter_eq_left.mpr Set.sdiff_subset
  have operands : (a.top \ left) ∩ (a.top \ right) ∩ a.top = (a.top \ left) ∩ (a.top \ right) :=
    Set.inter_eq_left.mpr (Set.inter_subset_left.trans Set.sdiff_subset)
  show a.permitStrong left right = a.top \ a.weak _ _ ∧ a.permitWeak left right = a.top \ a.strong _ _
  rw [operand, operands]
  exact ⟨permit_strong_dual leftLe rightLe, permit_weak_dual leftLe rightLe⟩

end

end Arena

end Coalition
