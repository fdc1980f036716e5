import Coalition.Proofs.Strategy.MoveGame
import Coalition.Strategy.Encoding

-- When every step of an encoding shows a step of an arena, so do its fixpoints.

set_option autoImplicit false

namespace Coalition

namespace Region

theorem pre_mono (r : Relation) {s t : Region} (le : s.members ⊆ t.members) : (r.pre s).members ⊆ (r.pre t).members := by
  unfold Relation.pre
  refine hide_mono _ ?_
  rw [members_inter, members_inter]
  refine Set.inter_subset_inter_right _ (hide_mono _ ?_)
  rw [members_inter, members_inter]
  exact Set.inter_subset_inter_left _ (hide_mono _ le)

theorem union_over_mono {f g : Region → Counted Region} {regions : List Region}
    (le : ∀ c ∈ regions, (f c).value.members ⊆ (g c).value.members) :
    (unionOver f regions).value.members ⊆ (unionOver g regions).value.members := by
  intro ρ member
  obtain ⟨c, listed, inside⟩ := mem_union_over.mp member
  exact mem_union_over.mpr ⟨c, listed, le c listed inside⟩

theorem inter_over_mono {f g : Region → Counted Region} {regions : List Region} {start : Region}
    (le : ∀ c ∈ regions, (f c).value.members ⊆ (g c).value.members) :
    (interOver start f regions).value.members ⊆ (interOver start g regions).value.members := by
  intro ρ member
  obtain ⟨first, all⟩ := mem_inter_over.mp member
  exact mem_inter_over.mpr ⟨first, fun c listed => le c listed (all c listed)⟩

end Region

-- A way to look at regions that respects the set operations.
structure Viewing {α : Type} (view : Region → Set α) : Prop where
  inter : ∀ r s, view (r.inter s) = view r ∩ view s
  union : ∀ r s, view (r.union s) = view r ∪ view s
  diff : ∀ r s, view (r.diff s) = view r \ view s
  empty : view .empty = ∅
  mono : ∀ r s, r.members ⊆ s.members → view r ⊆ view s

namespace Viewing

variable {α : Type} {view : Region → Set α} (viewing : Viewing view) {f : Region → Counted Region} {regions : List Region}

include viewing

theorem union_over : view (Region.unionOver f regions).value = {m | ∃ c ∈ regions, m ∈ view (f c).value} := by
  induction regions with
  | nil => simpa [Region.unionOver] using viewing.empty
  | cons c rest ih =>
      show view ((f c).value.union _) = _
      rw [viewing.union, ih]
      ext m
      simp

theorem inter_over {start : Region} :
    view (Region.interOver start f regions).value = {m | m ∈ view start ∧ ∀ c ∈ regions, m ∈ view (f c).value} := by
  induction regions with
  | nil => simp [Region.interOver]
  | cons c rest ih =>
      show view ((f c).value.inter _) = _
      rw [viewing.inter, ih]
      ext m
      simp only [Set.mem_inter_iff, Set.mem_ofPred_eq, List.forall_mem_cons]
      tauto

end Viewing

namespace Encoding

-- The steps of an encoding on regions over some bits look like those of an arena, and of what may follow a position.
structure Mirrors {α : Type} (e : Encoding) (bits : Set Nat) (view : Region → Set α) (a : Arena α) (follow : Set α →o Set α) : Prop where
  viewing : Viewing view
  range : ∀ r : Region, r.Reads bits → r.Reads (Finset.range e.size : Finset Nat)
  topReads : e.top.Reads bits
  top : view e.top = a.top
  validReads : e.valid.Reads bits
  valid : ∀ X, a.force X ⊆ view e.valid
  boxReads : ∀ r : Region, r.Reads bits → (e.box r).Reads bits
  box : ∀ r : Region, r.Reads bits → view (e.box r) = a.force (view r)
  diaReads : ∀ r : Region, r.Reads bits → (e.dia r).Reads bits
  dia : ∀ r : Region, r.Reads bits → view (e.dia r) = follow (view r)
  possible : follow ≤ a.permit
  inside : ∀ r, view r ⊆ a.top
  constraintReads : ∀ c ∈ e.fairness, c.Reads bits
  constraints : ∃ shown : Region → Set α, a.constraints = e.fairness.map shown ∧ ∀ c ∈ e.fairness, view c = shown c ∩ a.top
  within : ∀ X, a.force (X ∩ a.top) = a.force X

theorem box_mono (e : Encoding) {r s : Region} (le : r.members ⊆ s.members) : (e.box r).members ⊆ (e.box s).members := by
  simp only [box, Region.members_inter, Region.members_diff]
  refine Set.inter_subset_inter_right _ (Set.sdiff_subset_sdiff_right (Region.pre_mono _ ?_))
  rw [Region.members_diff, Region.members_diff]
  exact Set.sdiff_subset_sdiff_right le

theorem dia_mono (e : Encoding) {r s : Region} (le : r.members ⊆ s.members) : (e.dia r).members ⊆ (e.dia s).members := by
  simp only [dia, Region.members_inter]
  exact Set.inter_subset_inter_right _ (Region.pre_mono _ le)

theorem box_top (e : Encoding) (r : Region) : (e.box r).members ⊆ e.top.members := by
  simp only [box, Region.members_inter, Region.members_diff]
  exact Set.inter_subset_right.trans Set.sdiff_subset

section

variable {α : Type} {e : Encoding} {bits : Set Nat} {view : Region → Set α} {a : Arena α} {follow : Set α →o Set α}
  (mirrors : Mirrors e bits view a follow)
  {stay goal left right unfair z y c : Region}

include mirrors

theorem fair_mirrors : a.constraints.isEmpty = e.fairness.isEmpty := by
  obtain ⟨shown, same, _⟩ := mirrors.constraints
  rw [same, List.isEmpty_map]

theorem greatest_spec {f : Region → Counted Region} {F : Set α →o Set α} (reads : ∀ r : Region, r.Reads bits → (f r).value.Reads bits)
    (mono : ∀ r s : Region, r.Reads bits → s.Reads bits → r.members ⊆ s.members → (f r).value.members ⊆ (f s).value.members)
    (below : ∀ r, (f r).value.members ⊆ e.top.members) (inside : ∀ X, F X ⊆ a.top)
    (step : ∀ r : Region, r.Reads bits → view (f r).value = F (view r)) :
    (e.greatest f).value.Reads bits ∧ view (e.greatest f).value = OrderHom.gfp F :=
  Region.view_greatest ⟨fun r known => mirrors.range r known, reads, mono⟩ mirrors.topReads
    (fun r _ => below r) (fun X => mirrors.top.symm ▸ inside X) step

theorem least_spec {f : Region → Counted Region} {F : Set α →o Set α} (reads : ∀ r : Region, r.Reads bits → (f r).value.Reads bits)
    (mono : ∀ r s : Region, r.Reads bits → s.Reads bits → r.members ⊆ s.members → (f r).value.members ⊆ (f s).value.members)
    (step : ∀ r : Region, r.Reads bits → view (f r).value = F (view r)) :
    (e.least f).value.Reads bits ∧ view (e.least f).value = OrderHom.lfp F :=
  Region.view_least ⟨fun r known => mirrors.range r known, reads, mono⟩ (Region.reads_empty bits)
    mirrors.viewing.empty step

def won (e : Encoding) (goal : Goal) (unfair : Region) : Region :=
  match goal.kind with
  | .next => e.box ((goal.right.inter e.top).union unfair)
  | .strong => (e.strong (goal.left.inter e.top) (goal.right.inter e.top) unfair).value
  | .weak => (e.weak (goal.left.inter e.top) (goal.right.inter e.top) unfair).value

def avoidRound (e : Encoding) (stay goal c z y : Region) : Region :=
  ((z.union (e.top.diff c)).inter stay).inter (goal.union (e.box y))

omit mirrors in
theorem avoid_round_mono {z' y' : Region} (le : z.members ⊆ z'.members) (leToo : y.members ⊆ y'.members) :
    (avoidRound e stay goal c z y).members ⊆ (avoidRound e stay goal c z' y').members := by
  simp only [avoidRound, Region.members_inter, Region.members_union]
  refine Set.inter_subset_inter (Set.inter_subset_inter_left _ (Set.union_subset_union_left _ le)) ?_
  exact Set.union_subset_union_right _ (e.box_mono leToo)

omit mirrors in
theorem avoid_round_top (goalTop : goal.members ⊆ e.top.members) : (avoidRound e stay goal c z y).members ⊆ e.top.members := by
  simp only [avoidRound, Region.members_inter, Region.members_union]
  exact Set.inter_subset_right.trans (Set.union_subset goalTop (e.box_top y))

section

variable (stayReads : stay.Reads bits) (goalReads : goal.Reads bits) (goalTop : goal.members ⊆ e.top.members)

include stayReads goalReads

theorem reads_avoid_round (listed : c ∈ e.fairness) (zReads : z.Reads bits) (yReads : y.Reads bits) :
    (avoidRound e stay goal c z y).Reads bits :=
  ((zReads.union (mirrors.topReads.diff (mirrors.constraintReads c listed))).inter stayReads).inter
    (goalReads.union (mirrors.boxReads y yReads))

include goalTop

theorem avoid_spec {shown : Set α} (listed : c ∈ e.fairness) (zReads : z.Reads bits) (same : view c = shown ∩ a.top) :
    (e.greatest fun y => pure (avoidRound e stay goal c z y)).value.Reads bits ∧
      view (e.greatest fun y => pure (avoidRound e stay goal c z y)).value =
        OrderHom.gfp (a.avoid (view stay) (view goal) shown (view z)) := by
  refine greatest_spec mirrors (f := fun y => pure (avoidRound e stay goal c z y))
    (fun r reads => reads_avoid_round mirrors stayReads goalReads listed zReads reads)
    (fun r s _ _ le => avoid_round_mono (Set.Subset.refl _) le) (fun r => avoid_round_top goalTop) (fun X m member => ?_) fun r reads => ?_
  · rcases member.2 with won | forced
    · exact mirrors.inside _ won
    · exact a.force_top _ forced
  · show view (avoidRound e stay goal c z r) = (view stay ∩ (view z ∪ a.top \ shown)) ∩ (view goal ∪ a.force (view r))
    have v := mirrors.viewing
    rw [avoidRound, v.inter, v.inter, v.union, v.union, v.diff, mirrors.top, mirrors.box r reads, same, Set.sdiff_inter_self_eq_sdiff,
      Set.inter_comm (view stay)]

theorem escape_spec (zReads : z.Reads bits) :
    let escape := Region.unionOver (fun c => do
      let avoid ← e.greatest fun y => pure (avoidRound e stay goal c z y)
      return e.box avoid) e.fairness
    escape.value.Reads bits ∧ view escape.value = a.escape (view stay) (view goal) (view z) := by
  obtain ⟨shown, constraints, same⟩ := mirrors.constraints
  have avoids := fun c listed => avoid_spec mirrors stayReads goalReads goalTop listed zReads (same c listed)
  refine ⟨Region.reads_union_over fun c listed => mirrors.boxReads _ (avoids c listed).1, ?_⟩
  rw [mirrors.viewing.union_over]
  ext m
  rw [Arena.mem_escape, constraints]
  simp only [List.mem_map, exists_exists_and_eq_and, Set.mem_ofPred_eq]
  refine exists_congr fun c => and_congr_right fun listed => ?_
  rw [← (avoids c listed).2, ← mirrors.box _ (avoids c listed).1]
  rfl

theorem escape_mono (zReads : z.Reads bits) {z' : Region} (otherReads : z'.Reads bits) (le : z.members ⊆ z'.members) :
    (Region.unionOver (fun c => do
      let avoid ← e.greatest fun y => pure (avoidRound e stay goal c z y)
      return e.box avoid) e.fairness).value.members ⊆ (Region.unionOver (fun c => do
      let avoid ← e.greatest fun y => pure (avoidRound e stay goal c z' y)
      return e.box avoid) e.fairness).value.members := by
  refine Region.union_over_mono fun c listed => e.box_mono ?_
  have steady : ∀ {z : Region}, z.Reads bits → Region.Steady (Finset.range e.size) (fun r => r.Reads bits)
      fun y => pure (avoidRound e stay goal c z y) := fun reads =>
    ⟨mirrors.range, fun r known => reads_avoid_round mirrors stayReads goalReads listed reads known,
      fun r s _ _ leToo => avoid_round_mono (Set.Subset.refl _) leToo⟩
  exact Region.greatest_mono (steady zReads) (steady otherReads) mirrors.topReads (fun r _ => avoid_round_top goalTop)
    fun r _ => avoid_round_mono le (Set.Subset.refl _)

end

theorem reached_spec (goalReads : goal.Reads bits) :
    (e.least fun y => pure (goal.union (e.dia y))).value.Reads bits ∧
      view (e.least fun y => pure (goal.union (e.dia y))).value = OrderHom.lfp (Arena.approachable follow (view goal)) := by
  refine least_spec mirrors (f := fun y => pure (goal.union (e.dia y))) (fun r reads => goalReads.union (mirrors.diaReads r reads))
    (fun r s _ _ le => ?_) fun r reads => ?_
  · rw [Counted.value_pure, Counted.value_pure, Region.members_union, Region.members_union]
    exact Set.union_subset_union_right _ (e.dia_mono le)
  · show view (goal.union (e.dia r)) = _
    rw [mirrors.viewing.union, mirrors.dia r reads]
    rfl

theorem unfair_spec : e.unfair.value.Reads bits ∧ view e.unfair.value =
    if a.constraints.isEmpty then ∅ else view e.valid \ OrderHom.gfp (a.recurring follow) := by
  unfold Encoding.unfair
  rw [fair_mirrors mirrors]
  cases free : e.fairness.isEmpty with
  | true => exact ⟨Region.reads_empty bits, mirrors.viewing.empty⟩
  | false =>
      rw [if_neg Bool.false_ne_true, if_neg Bool.false_ne_true]
      obtain ⟨shown, constraints, same⟩ := mirrors.constraints
      have reached := fun (z : Region) (reads : z.Reads bits) c listed =>
        reached_spec mirrors (reads.inter (mirrors.constraintReads c listed))
      -- the states from which a fair path goes on: a greatest fixpoint around one least fixpoint for each constraint
      have fair : (e.greatest fun z => Region.interOver e.top (fun c => do
          let reached ← e.least fun y => pure ((z.inter c).union (e.dia y))
          return e.dia reached) e.fairness).value.Reads bits ∧ view (e.greatest fun z => Region.interOver e.top (fun c => do
          let reached ← e.least fun y => pure ((z.inter c).union (e.dia y))
          return e.dia reached) e.fairness).value = OrderHom.gfp (a.recurring follow) := by
        refine greatest_spec mirrors (fun z reads => Region.reads_inter_over mirrors.topReads fun c listed => ?_)
          (fun z w zReads wReads le => Region.inter_over_mono fun c listed => e.dia_mono ?_)
          (fun z ρ member => (Region.mem_inter_over.mp member).1) (fun X m member => member.1) fun z reads => ?_
        · exact mirrors.diaReads _ (reached z reads c listed).1
        · have steady : Region.Steady (Finset.range e.size) (fun r => r.Reads bits) fun y => pure ((w.inter c).union (e.dia y)) := by
            refine ⟨mirrors.range, fun r known => (wReads.inter (mirrors.constraintReads c listed)).union (mirrors.diaReads r known),
              fun r s _ _ leToo => ?_⟩
            rw [Counted.value_pure, Counted.value_pure, Region.members_union, Region.members_union]
            exact Set.union_subset_union_right _ (e.dia_mono leToo)
          refine Region.least_mono (fun r known => (zReads.inter (mirrors.constraintReads c listed)).union (mirrors.diaReads r known))
            steady (Region.reads_empty bits) fun r _ => ?_
          rw [Counted.value_pure, Counted.value_pure, Region.members_union, Region.members_union, Region.members_inter, Region.members_inter]
          exact Set.union_subset_union_left _ (Set.inter_subset_inter_left _ le)
        · rw [mirrors.viewing.inter_over]
          ext m
          show _ ↔ m ∈ a.top ∧ ∀ d ∈ a.constraints, m ∈ follow (OrderHom.lfp (Arena.approachable follow (view z ∩ d)))
          rw [constraints, List.forall_mem_map, ← mirrors.top]
          refine and_congr_right fun _ => forall₂_congr fun c listed => ?_
          have shownHere : view (z.inter c) = view z ∩ shown c := by
            rw [mirrors.viewing.inter, same c listed, ← Set.inter_assoc]
            exact Set.inter_eq_left.mpr (Set.inter_subset_left.trans (mirrors.inside z))
          rw [← shownHere, ← (reached z reads c listed).2, ← mirrors.dia _ (reached z reads c listed).1]
          rfl
      refine ⟨mirrors.validReads.diff fair.1, ?_⟩
      rw [Counted.value_bind, Counted.value_pure, mirrors.viewing.diff, fair.2]

theorem unfair_above : a.unfair ⊆ view e.unfair.value := by
  rw [(unfair_spec mirrors).2]
  split
  · rename_i free
    rw [a.unfair_empty (List.isEmpty_iff.mp free)]
  · intro m bad
    refine ⟨mirrors.valid _ (a.unfair_forces bad), fun fair => ?_⟩
    rw [← a.sdiff_recurring] at bad
    exact bad.2 (a.recurring_mono mirrors.possible fair)

theorem unfair_eq (valid : view e.valid = a.top) (follows : follow = a.permit) : view e.unfair.value = a.unfair := by
  rw [(unfair_spec mirrors).2, valid, follows, a.sdiff_recurring]
  split
  · rename_i free
    exact (a.unfair_empty (List.isEmpty_iff.mp free)).symm
  · rfl

section

variable (leftReads : left.Reads bits) (rightReads : right.Reads bits) (rightTop : right.members ⊆ e.top.members)
  (unfairReads : unfair.Reads bits)

include leftReads rightReads unfairReads

theorem stay_spec : ((left.union right).union unfair).Reads bits ∧
    view ((left.union right).union unfair) = (view right ∪ view left) ∪ view unfair := by
  refine ⟨(leftReads.union rightReads).union unfairReads, ?_⟩
  rw [mirrors.viewing.union, mirrors.viewing.union, Set.union_comm (view left)]

include rightTop

theorem strong_spec : (e.strong left right unfair).value.Reads bits ∧
    view (e.strong left right unfair).value = a.strongCounting (view unfair) (view left) (view right) := by
  have v := mirrors.viewing
  unfold Encoding.strong Arena.strongCounting
  rw [fair_mirrors mirrors]
  cases free : e.fairness.isEmpty with
  | true =>
      rw [if_pos rfl, if_pos rfl]
      refine least_spec mirrors (f := fun z => pure (right.union (left.inter (e.box z))))
        (fun r reads => rightReads.union (leftReads.inter (mirrors.boxReads r reads))) (fun r s _ _ le => ?_) fun r reads => ?_
      · simp only [Counted.value_pure, Region.members_union, Region.members_inter]
        exact Set.union_subset_union_right _ (Set.inter_subset_inter_right _ (e.box_mono le))
      · show view (right.union (left.inter (e.box r))) = _
        rw [v.union, v.inter, mirrors.box r reads]
        rfl
  | false =>
      rw [if_neg Bool.false_ne_true, if_neg Bool.false_ne_true]
      obtain ⟨stayReads, stay⟩ := stay_spec mirrors leftReads rightReads unfairReads
      generalize (left.union right).union unfair = stayRegion at *
      have escapes := fun (z : Region) (reads : z.Reads bits) => escape_spec mirrors stayReads rightReads rightTop reads
      refine least_spec mirrors (F := a.pursue ((view right ∪ view left) ∪ view unfair) (view right)) (fun z reads => ?_) (fun z w reads readsToo le => ?_)
        fun z reads => ?_
      · exact stayReads.inter (rightReads.union (escapes z reads).1)
      · simp only [Counted.value_bind, Counted.value_pure, Region.members_inter, Region.members_union]
        exact Set.inter_subset_inter_right _ (Set.union_subset_union_right _
          (escape_mono mirrors stayReads rightReads rightTop reads readsToo le))
      · rw [← stay]
        show view (stayRegion.inter (right.union _)) = view stayRegion ∩ (view right ∪ a.escape (view stayRegion) (view right) (view z))
        rw [v.inter, v.union, ← (escapes z reads).2]
        rfl

theorem weak_spec : (e.weak left right unfair).value.Reads bits ∧
    view (e.weak left right unfair).value = a.weakCounting (view unfair) (view left) (view right) := by
  have v := mirrors.viewing
  obtain ⟨stayReads, stay⟩ := stay_spec mirrors leftReads rightReads unfairReads
  unfold Encoding.weak
  refine greatest_spec mirrors (F := a.linger ((view right ∪ view left) ∪ view unfair) (view right))
    (fun z reads => stayReads.inter (rightReads.union (mirrors.boxReads z reads))) (fun z w _ _ le => ?_) (fun z => ?_)
    (fun X m member => ?_) fun z reads => ?_
  · simp only [Counted.value_pure, Region.members_inter, Region.members_union]
    exact Set.inter_subset_inter_right _ (Set.union_subset_union_right _ (e.box_mono le))
  · simp only [Counted.value_pure, Region.members_inter, Region.members_union]
    exact Set.inter_subset_right.trans (Set.union_subset rightTop (e.box_top z))
  · rcases member.2 with won | forced
    · exact mirrors.inside _ won
    · exact a.force_top _ forced
  · show view (((left.union right).union unfair).inter (right.union (e.box z))) = ((view right ∪ view left) ∪ view unfair) ∩ _
    rw [v.inter, stay, v.union, mirrors.box z reads]

end

omit mirrors in
theorem winning_eq (e : Encoding) (goal : Goal) (unfair : Region) : (e.winning goal unfair).value =
    ((e.jump.pre (e.top.diff (e.equiv.pre (e.reachable.inter (e.top.diff (e.won goal unfair)))))).hide e.bits).inter e.reachable := by
  obtain ⟨kind, left, right⟩ := goal
  cases kind <;> rfl

theorem won_spec {goal : Goal} {L R : Set α} (leftReads : goal.left.Reads bits) (rightReads : goal.right.Reads bits)
    (leftView : view goal.left = L ∩ a.top) (rightView : view goal.right = R ∩ a.top) :
    (e.won goal e.unfair.value).Reads bits ∧
      view (e.won goal e.unfair.value) = a.counting (view e.unfair.value) goal.kind L R := by
  have unfairReads := (unfair_spec mirrors).1
  have operand : ∀ {r : Region} {X : Set α}, view r = X ∩ a.top → view (r.inter e.top) = X ∩ a.top := by
    intro r X same
    rw [mirrors.viewing.inter, same, mirrors.top, Set.inter_assoc, Set.inter_self]
  have leftTop : (goal.left.inter e.top).Reads bits := leftReads.inter mirrors.topReads
  have rightTop : (goal.right.inter e.top).Reads bits := rightReads.inter mirrors.topReads
  have below : (goal.right.inter e.top).members ⊆ e.top.members := Region.inter_subset_right _ _
  obtain ⟨kind, left, right⟩ := goal
  cases kind with
  | next =>
      refine ⟨mirrors.boxReads _ (rightTop.union unfairReads), ?_⟩
      show view (e.box ((right.inter e.top).union e.unfair.value)) = a.force (R ∪ view e.unfair.value)
      rw [mirrors.box _ (rightTop.union unfairReads), mirrors.viewing.union, operand rightView,
        ← mirrors.within (R ∪ view e.unfair.value), Set.union_inter_distrib_right, Set.inter_eq_left.mpr (mirrors.inside e.unfair.value)]
  | strong =>
      obtain ⟨reads, same⟩ := strong_spec mirrors leftTop rightTop below unfairReads
      rw [operand leftView, operand rightView] at same
      exact ⟨reads, same⟩
  | weak =>
      obtain ⟨reads, same⟩ := weak_spec mirrors leftTop rightTop below unfairReads
      rw [operand leftView, operand rightView] at same
      exact ⟨reads, same⟩

end

end Encoding

end Coalition
