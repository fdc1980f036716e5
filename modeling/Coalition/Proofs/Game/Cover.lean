import Coalition.Proofs.Game.Arena

-- When forcing depends only on an image of the positions, so does winning.

set_option autoImplicit false

namespace Coalition

variable {α β : Type}

def atop (top : Set α) (image : α → β) (X : Set β) : Set α := top ∩ Set.preimage image X

section

variable {top : Set α} {image : α → β} {B : Set β} {F : Set α →o Set α} {G : Set β →o Set β}

theorem atop_lfp (step : ∀ X, X ⊆ B → F (atop top image X) = atop top image (G X)) (inside : ∀ X, X ⊆ B → G X ⊆ B) :
    OrderHom.lfp F = atop top image (OrderHom.lfp G) ∧ OrderHom.lfp G ⊆ B := by
  have least : OrderHom.lfp G ⊆ B := G.lfp_le (inside B (Set.Subset.refl _))
  refine ⟨Set.Subset.antisymm ?_ ?_, least⟩
  · apply F.lfp_le
    rw [step _ least, G.map_lfp]
  · have small : OrderHom.lfp G ⊆ {s | s ∈ B ∧ ∀ m ∈ top, image m = s → m ∈ OrderHom.lfp F} := by
      apply G.lfp_le
      intro s member
      refine ⟨inside _ (fun _ here => here.1) member, fun m here same => ?_⟩
      rw [← F.map_lfp]
      have lifted : m ∈ F (atop top image {s | s ∈ B ∧ ∀ m ∈ top, image m = s → m ∈ OrderHom.lfp F}) := by
        rw [step _ fun _ here => here.1]
        subst same
        exact ⟨here, member⟩
      exact F.mono (fun n known => known.2.2 n known.1 rfl) lifted
    exact fun m member => (small member.2).2 m member.1 rfl

theorem atop_gfp (step : ∀ X, X ⊆ B → F (atop top image X) = atop top image (G X)) (inside : ∀ X, G X ⊆ B)
    (within : ∀ Y, F Y ⊆ top) (belowTop : ∀ m ∈ top, image m ∈ B) :
    OrderHom.gfp F = atop top image (OrderHom.gfp G) := by
  have greatest : OrderHom.gfp G ⊆ B := by
    rw [← G.map_gfp]
    exact inside _
  apply Set.Subset.antisymm
  · have large : {s | ∃ m ∈ OrderHom.gfp F, image m = s} ⊆ OrderHom.gfp G := by
      have known : OrderHom.gfp F ⊆ top := by
        rw [← F.map_gfp]
        exact within _
      apply G.le_gfp
      rintro s ⟨m, member, rfl⟩
      have images : {s | ∃ m ∈ OrderHom.gfp F, image m = s} ⊆ B := by
        rintro s ⟨n, here, rfl⟩
        exact belowTop n (known here)
      rw [← F.map_gfp] at member
      have larger : OrderHom.gfp F ⊆ atop top image {s | ∃ m ∈ OrderHom.gfp F, image m = s} :=
        fun n here => ⟨known here, n, here, rfl⟩
      have lifted : m ∈ F (atop top image {s | ∃ m ∈ OrderHom.gfp F, image m = s}) := F.mono larger member
      rw [step _ images] at lifted
      exact lifted.2
    intro m member
    refine ⟨?_, large ⟨m, member, rfl⟩⟩
    rw [← F.map_gfp] at member
    exact within _ member
  · apply F.le_gfp
    rw [step _ greatest, G.map_gfp]

theorem atop_empty : atop top image (∅ : Set β) = ∅ := by
  unfold atop
  rw [Set.preimage_empty, Set.inter_empty]

theorem atop_union (X Y : Set β) : atop top image (X ∪ Y) = atop top image X ∪ atop top image Y :=
  Set.inter_union_distrib_left top _ _

theorem atop_inter (X Y : Set β) : atop top image (X ∩ Y) = atop top image X ∩ atop top image Y :=
  Set.inter_inter_distrib_left top _ _

end

namespace Arena

-- Forcing in the upper arena is forcing between images in the lower one.
structure Covers (a : Arena α) (b : Arena β) (image : α → β) : Prop where
  top : ∀ m ∈ a.top, image m ∈ b.top
  force : ∀ (Z X : Set β), X ⊆ b.top →
    a.force (Set.preimage image Z ∪ atop a.top image X) = atop a.top image (b.force (Z ∪ X))
  constraints : a.constraints = b.constraints.map (Set.preimage image)

variable {a : Arena α} {b : Arena β} {image : α → β} {stay goal left right : Set β}

theorem Covers.force_atop (covers : Covers a b image) {X : Set β} (le : X ⊆ b.top) :
    a.force (atop a.top image X) = atop a.top image (b.force X) := by
  have forced := covers.force ∅ X le
  rwa [Set.preimage_empty, Set.empty_union, Set.empty_union] at forced

section

variable (covers : Covers a b image)

include covers

theorem Covers.avoid_atop {stayUpper : Set α} (goalLe : goal ⊆ b.top) (c z : Set β)
    (stays : ∀ m ∈ a.top, m ∈ stayUpper ↔ image m ∈ stay) :
    OrderHom.gfp (a.avoid stayUpper (atop a.top image goal) (Set.preimage image c) (atop a.top image z)) =
      atop a.top image (OrderHom.gfp (b.avoid stay goal c z)) := by
  have inside : ∀ X, b.avoid stay goal c z X ⊆ b.top := by
    rintro X s ⟨_, won | forced⟩
    · exact goalLe won
    · exact b.force_top _ forced
  refine atop_gfp (fun X le => ?_) inside (fun Y m member => ?_) covers.top
  · ext m
    show (m ∈ stayUpper ∧ (m ∈ atop a.top image z ∨ m ∈ a.top ∧ image m ∉ c)) ∧
        (m ∈ atop a.top image goal ∨ m ∈ a.force (atop a.top image X)) ↔
      m ∈ a.top ∧ (image m ∈ stay ∧ (image m ∈ z ∨ image m ∈ b.top ∧ image m ∉ c)) ∧ (image m ∈ goal ∨ image m ∈ b.force X)
    rw [covers.force_atop le]
    constructor
    · rintro ⟨⟨stay, place⟩, won⟩
      have here : m ∈ a.top := won.elim And.left And.left
      exact ⟨here, ⟨(stays m here).mp stay, place.imp And.right fun out => ⟨covers.top m here, out.2⟩⟩,
        won.imp And.right And.right⟩
    · rintro ⟨here, ⟨stay, place⟩, won⟩
      exact ⟨⟨(stays m here).mpr stay, place.imp (fun known => ⟨here, known⟩) fun out => ⟨here, out.2⟩⟩,
        won.imp (fun known => ⟨here, known⟩) fun known => ⟨here, known⟩⟩
  · rcases member.2 with won | forced
    · exact won.1
    · exact a.force_top _ forced

theorem Covers.escape_atop {stayUpper : Set α} (goalLe : goal ⊆ b.top) (z : Set β)
    (stays : ∀ m ∈ a.top, m ∈ stayUpper ↔ image m ∈ stay) :
    a.escape stayUpper (atop a.top image goal) (atop a.top image z) = atop a.top image (b.escape stay goal z) := by
  ext m
  have each : ∀ c, m ∈ a.force (OrderHom.gfp (a.avoid stayUpper (atop a.top image goal) (Set.preimage image c) (atop a.top image z))) ↔
      m ∈ a.top ∧ image m ∈ b.force (OrderHom.gfp (b.avoid stay goal c z)) := by
    intro c
    have inside : OrderHom.gfp (b.avoid stay goal c z) ⊆ b.top := by
      intro s member
      obtain ⟨_, _, won | forced⟩ := b.avoid_unfolds member
      · exact goalLe won
      · exact b.force_top _ forced
    rw [covers.avoid_atop goalLe c z stays, covers.force_atop inside]
    exact Iff.rfl
  rw [mem_escape, covers.constraints]
  constructor
  · rintro ⟨d, listed, forced⟩
    obtain ⟨c, known, rfl⟩ := List.mem_map.mp listed
    have both := (each c).mp forced
    exact ⟨both.1, c, known, both.2⟩
  · rintro ⟨here, c, known, forced⟩
    exact ⟨_, List.mem_map_of_mem known, (each c).mpr ⟨here, forced⟩⟩

theorem Covers.unfair_atop : a.unfair = atop a.top image b.unfair := by
  have escapes := fun (X : Set β) (_ : X ⊆ b.top) =>
    have stays : ∀ m ∈ a.top, m ∈ (Set.univ : Set α) ↔ image m ∈ (Set.univ : Set β) := fun _ _ => Iff.rfl
    covers.escape_atop (Set.empty_subset b.top) X stays
  rw [atop_empty] at escapes
  exact (atop_lfp escapes fun X _ => b.escape_subset_top _ _ X).1

theorem Covers.staying_atop : a.staying (atop a.top image left) (atop a.top image right) = atop a.top image (b.staying left right) := by
  unfold staying
  rw [atop_union, atop_union, covers.unfair_atop]

theorem Covers.fair : a.constraints.isEmpty = b.constraints.isEmpty := by rw [covers.constraints, List.isEmpty_map]

theorem Covers.strong_atop (leftLe : left ⊆ b.top) (rightLe : right ⊆ b.top) :
    a.strong (atop a.top image left) (atop a.top image right) = atop a.top image (b.strong left right) := by
  unfold strong
  rw [covers.fair]
  split
  · refine (atop_lfp (B := b.top) (fun X le => ?_) fun X _ => ?_).1
    · show atop a.top image right ∪ atop a.top image left ∩ a.force (atop a.top image X) =
        atop a.top image (right ∪ left ∩ b.force X)
      rw [covers.force_atop le, atop_union, atop_inter]
    · exact Set.union_subset rightLe fun s member => leftLe member.1
  · refine (atop_lfp (B := b.top) (fun X le => ?_) fun X _ s member => ?_).1
    · show a.staying _ _ ∩ (atop a.top image right ∪ a.escape (a.staying _ _) (atop a.top image right) (atop a.top image X)) =
        atop a.top image (b.staying left right ∩ (right ∪ b.escape (b.staying left right) right X))
      have stays : ∀ m ∈ a.top, m ∈ a.staying (atop a.top image left) (atop a.top image right) ↔ image m ∈ b.staying left right := by
        intro m here
        rw [covers.staying_atop]
        exact and_iff_right here
      rw [covers.escape_atop rightLe X stays, covers.staying_atop, atop_inter, atop_union]
    · exact b.staying_subset_top leftLe rightLe member.1

theorem Covers.weak_atop (leftLe : left ⊆ b.top) (rightLe : right ⊆ b.top) :
    a.weak (atop a.top image left) (atop a.top image right) = atop a.top image (b.weak left right) := by
  refine atop_gfp (B := b.top) (fun X le => ?_) (fun X s member => ?_) (fun Y m member => ?_) covers.top
  · show a.staying _ _ ∩ (atop a.top image right ∪ a.force (atop a.top image X)) =
      atop a.top image (b.staying left right ∩ (right ∪ b.force X))
    rw [covers.force_atop le, covers.staying_atop, atop_inter, atop_union]
  · exact b.staying_subset_top leftLe rightLe member.1
  · rcases member.2 with won | forced
    · exact won.1
    · exact a.force_top _ forced

theorem Covers.wins_atop (kind : GoalKind) (left right : Set β) :
    a.wins kind (Set.preimage image left) (Set.preimage image right) = atop a.top image (b.wins kind left right) := by
  have operand : ∀ X : Set β, Set.preimage image X ∩ a.top = atop a.top image (X ∩ b.top) := by
    intro X
    ext m
    constructor
    · rintro ⟨inside, here⟩
      exact ⟨here, inside, covers.top m here⟩
    · rintro ⟨here, inside, _⟩
      exact ⟨inside, here⟩
  cases kind with
  | next =>
      show a.force (Set.preimage image right ∪ a.unfair) = atop a.top image (b.force (right ∪ b.unfair))
      rw [covers.unfair_atop, covers.force right b.unfair b.unfair_subset_top]
  | strong =>
      show a.strong (Set.preimage image left ∩ a.top) (Set.preimage image right ∩ a.top) = _
      rw [operand, operand]
      exact covers.strong_atop Set.inter_subset_right Set.inter_subset_right
  | weak =>
      show a.weak (Set.preimage image left ∩ a.top) (Set.preimage image right ∩ a.top) = _
      rw [operand, operand]
      exact covers.weak_atop Set.inter_subset_right Set.inter_subset_right

end

-- What is forced from positions of a set by way of some positions is forced by way of those in the set.
def Retains (a : Arena α) (K : Set α) : Prop := ∀ Z X, X ⊆ a.top → a.force (Z ∪ X) ∩ K ⊆ a.force (Z ∪ (X ∩ K))

-- What is forced from positions of a set is forced within it.
def Encloses (a : Arena α) (K : Set α) : Prop := ∀ X, a.force X ∩ K ⊆ a.force (X ∩ K)

section

variable {a : Arena α} {K left right left' right' : Set α}

theorem Retains.covers (retains : a.Retains K) : Covers (a.on K) a id where
  top _ member := member.1
  force Z X le := by
    rw [Set.preimage_id]
    apply Set.Subset.antisymm
    · rintro m ⟨here, forced⟩
      refine ⟨⟨a.force_top _ forced, here⟩, a.force.mono ?_ forced⟩
      exact Set.union_subset_union_right _ fun n member => member.2
    · rintro m ⟨⟨_, here⟩, forced⟩
      refine ⟨here, a.force.mono ?_ (retains Z X le ⟨forced, here⟩)⟩
      exact Set.union_subset_union_right _ fun n member => ⟨⟨le member.1, member.2⟩, member.1⟩
  constraints := (List.map_id _).symm

theorem Retains.wins_on (retains : a.Retains K) (kind : GoalKind) (left right : Set α) :
    (a.on K).wins kind left right = K ∩ a.wins kind left right := by
  refine (retains.covers.wins_atop kind left right).trans ?_
  ext m
  exact ⟨fun member => ⟨member.1.2, member.2⟩, fun member => ⟨⟨a.wins_subset_top _ _ _ member.2, member.1⟩, member.2⟩⟩

theorem Encloses.retains (encloses : a.Encloses K) : a.Retains K := by
  intro Z X _ m member
  refine a.force.mono ?_ (encloses _ member)
  rintro n ⟨goal | there, inside⟩
  · exact .inl goal
  · exact .inr ⟨there, inside⟩

theorem Encloses.wins_congr (encloses : a.Encloses K) (kind : GoalKind) (sameLeft : left ∩ K = left' ∩ K)
    (sameRight : right ∩ K = right' ∩ K) : K ∩ a.wins kind left right = K ∩ a.wins kind left' right' := by
  have operand : ∀ {X Y : Set α}, X ∩ K = Y ∩ K → X ∩ (a.on K).top = Y ∩ (a.on K).top := by
    intro X Y same
    show X ∩ (a.top ∩ K) = Y ∩ (a.top ∩ K)
    rw [Set.inter_left_comm, same, Set.inter_left_comm]
  have force : ∀ {X Y : Set α}, X ∩ K = Y ∩ K → ∀ bad : Set α, K ∩ a.force (X ∪ bad) ⊆ K ∩ a.force (Y ∪ bad) := by
    rintro X Y same bad m ⟨here, forced⟩
    refine ⟨here, a.force.mono ?_ (encloses _ ⟨forced, here⟩)⟩
    rintro n ⟨goal | there, inside⟩
    · exact .inl (same.le ⟨goal, inside⟩).1
    · exact .inr there
  cases kind with
  | next => exact Set.Subset.antisymm (force sameRight _) (force sameRight.symm _)
  | strong =>
      rw [← encloses.retains.wins_on, ← encloses.retains.wins_on]
      simp only [wins, operand sameLeft, operand sameRight]
  | weak =>
      rw [← encloses.retains.wins_on, ← encloses.retains.wins_on]
      simp only [wins, operand sameLeft, operand sameRight]

end

end Arena

end Coalition
