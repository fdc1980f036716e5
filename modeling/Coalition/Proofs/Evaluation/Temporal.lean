import Coalition.Evaluation.Temporal
import Coalition.Proofs.Strategy.MoveGame

-- The regions computed are least and greatest fixpoints over the steps.

set_option autoImplicit false

namespace Coalition

namespace System

section

variable (sys : System)

def before : Set Valuation →o Set Valuation :=
  ⟨fun X => {ρ | ∃ u ∈ X, sys.Step (sys.stateOf ρ) u}, fun _ _ le _ ⟨u, inside, step⟩ => ⟨u, le inside, step⟩⟩

-- One more step through `left`, by way of `fair`, towards `goal`.
def approach (fair left goal : Set Valuation) : Set Valuation →o Set Valuation :=
  ⟨fun X => goal ∪ (left ∩ sys.before (X ∩ fair)), fun _ _ le => Set.union_subset_union_right _
    (Set.inter_subset_inter_right _ (sys.before.mono (Set.inter_subset_inter_left _ le)))⟩

theorem approach_mono {fair left left' goal goal' : Set Valuation} (leftLe : left ⊆ left') (le : goal ⊆ goal') :
    OrderHom.lfp (sys.approach fair left goal) ⊆ OrderHom.lfp (sys.approach fair left' goal') :=
  OrderHom.lfp.mono fun _ => Set.union_subset_union le (Set.inter_subset_inter_left _ leftLe)

-- The states of `stay` from which steps through it lead to every constraint within a set.
def linger (stay : Set Valuation) : Set Valuation →o Set Valuation :=
  ⟨fun X => {ρ | ρ ∈ stay ∧ ∀ c ∈ sys.fairness, ρ ∈ sys.before (OrderHom.lfp (sys.approach Set.univ stay (X ∩ c.members)))},
    fun _ _ le _ member => ⟨member.1, fun c listed =>
      sys.before.mono (sys.approach_mono (Set.Subset.refl _) (Set.inter_subset_inter_left _ le)) (member.2 c listed)⟩⟩

def proceed (stay : Set Valuation) : Set Valuation →o Set Valuation :=
  ⟨fun X => stay ∩ sys.before X, fun _ _ le => Set.inter_subset_inter_right _ (sys.before.mono le)⟩

def always (stay : Set Valuation) : Set Valuation :=
  if sys.fairness.isEmpty then OrderHom.gfp (proceed sys stay) else OrderHom.gfp (linger sys stay)

def suspects (fair : Set Valuation) (t : Team) : Set Valuation →o Set Valuation :=
  ⟨fun X => {ρ | ρ ∈ sys.statesMask.members ∧ ∃ σ ∈ X, σ ∈ sys.reachable.members ∧ σ ∈ fair ∧ t.Same σ ρ},
    fun _ _ le _ ⟨state, σ, inside, known⟩ => ⟨state, σ, le inside, known⟩⟩

def suspectsSome (fair : Set Valuation) (t : Team) : Set Valuation →o Set Valuation :=
  ⟨fun X => {ρ | ∃ w ∈ t.singles, ρ ∈ sys.suspects fair w X}, fun _ _ le _ ⟨w, single, inside⟩ =>
    ⟨w, single, (sys.suspects fair w).mono le inside⟩⟩

def suspectsChain (fair : Set Valuation) (t : Team) (X : Set Valuation) : Set Valuation →o Set Valuation :=
  ⟨fun Z => sys.suspectsSome fair t (Z ∪ X), fun _ _ le => (sys.suspectsSome fair t).mono (Set.union_subset_union_left _ le)⟩

end

variable {sys : System} {target states fair left right : Region} {ρ : Valuation}

namespace WellFormed

variable (wf : sys.WellFormed)

include wf

theorem pre_spec (known : sys.StateSet target) :
    sys.StateSet (sys.pre target) ∧ (sys.pre target).members = sys.before target.members := by
  have members : (sys.pre target).members = sys.before target.members := by
    ext ρ
    refine (Frame.mem_relation_pre wf.laid wf.transReads known.reads).trans ?_
    constructor
    · rintro ⟨τ, trans, here, inside⟩
      exact ⟨_, inside, τ, trans, here, rfl⟩
    · rintro ⟨u, inside, τ, trans, here, rfl⟩
      exact ⟨τ, trans, here, inside⟩
  refine ⟨⟨?_, Frame.reads_relation_pre wf.laid wf.transReads known.reads⟩, members⟩
  rw [members]
  rintro ρ ⟨u, _, τ, trans, here, _⟩
  exact (Frame.mem_of_state sys.reads_states_mask here).mp (wf.trans_states trans)

theorem least_spec {f : Region → Counted Region} {F : Set Valuation →o Set Valuation}
    (keeps : ∀ r, sys.StateSet r → sys.StateSet (f r).value) (step : ∀ r, sys.StateSet r → (f r).value.members = F r.members) :
    sys.StateSet (sys.least f).value ∧ (sys.least f).value.members = OrderHom.lfp F :=
  Region.members_least (fun _ known => wf.state_set_range known) keeps step (.empty _)

theorem greatest_spec {f : Region → Counted Region} {F : Set Valuation →o Set Valuation}
    (keeps : ∀ r, sys.StateSet r → sys.StateSet (f r).value) (step : ∀ r, sys.StateSet r → (f r).value.members = F r.members)
    (below : ∀ X, F X ⊆ sys.statesMask.members) :
    sys.StateSet (sys.greatest f).value ∧ (sys.greatest f).value.members = OrderHom.gfp F :=
  Region.members_greatest (fun _ known => wf.state_set_range known) keeps step (.mask _) below

theorem some_next_spec (fairReads : fair.Reads sys.stateBit) (known : sys.StateSet states) :
    sys.StateSet (sys.someNext fair states) ∧ (sys.someNext fair states).members = sys.before (states.members ∩ fair.members) := by
  unfold someNext
  rw [known.states_of wf.laid, ← Region.members_inter]
  exact wf.pre_spec (known.inter fairReads)

theorem some_until_spec (fairReads : fair.Reads sys.stateBit) (leftReads : left.Reads sys.stateBit) (known : sys.StateSet right) :
    sys.StateSet (sys.someUntil fair left right).value ∧ (sys.someUntil fair left right).value.members =
      OrderHom.lfp (sys.approach fair.members left.members ((right.members ∩ fair.members) ∩ sys.reachable.members)) := by
  have goal := (known.inter fairReads).inter wf.reachable_state_set.reads
  apply wf.least_spec
    (f := fun x => pure (((right.inter fair).inter sys.reachable).union (left.inter (sys.someNext fair x))))
  · exact fun r steps => goal.union ((wf.some_next_spec fairReads steps).1.within leftReads)
  · intro r steps
    show Region.members (Region.union _ _) = _
    rw [Region.members_union, Region.members_inter, Region.members_inter, Region.members_inter, (wf.some_next_spec fairReads steps).2]
    rfl

theorem reached_spec (known : sys.StateSet left) (goalKnown : sys.StateSet right) :
    sys.StateSet (sys.least fun y => pure (right.union (left.inter (sys.pre y)))).value ∧
      (sys.least fun y => pure (right.union (left.inter (sys.pre y)))).value.members =
        OrderHom.lfp (sys.approach Set.univ left.members right.members) := by
  apply wf.least_spec (f := fun y => pure (right.union (left.inter (sys.pre y))))
  · exact fun r steps => goalKnown.union (known.inter (wf.pre_spec steps).1.reads)
  · intro r steps
    show Region.members (Region.union _ _) = right.members ∪ (left.members ∩ sys.before (r.members ∩ Set.univ))
    rw [Region.members_union, Region.members_inter, (wf.pre_spec steps).2, Set.inter_univ]

theorem some_always_spec (known : sys.StateSet states) :
    sys.StateSet (sys.someAlways states).value ∧ (sys.someAlways states).value.members = sys.always states.members := by
  unfold someAlways always
  cases free : sys.fairness.isEmpty with
  | true =>
      apply wf.greatest_spec (f := fun z => pure (states.inter (sys.pre z)))
      · exact fun r steps => known.inter (wf.pre_spec steps).1.reads
      · intro r steps
        show Region.members (Region.inter _ _) = _
        rw [Region.members_inter, (wf.pre_spec steps).2]
        rfl
      · exact fun X => Set.inter_subset_left.trans known.inside
  | false =>
      have reached : ∀ z, sys.StateSet z → ∀ c ∈ sys.fairness, _ := fun z steps c listed =>
        wf.reached_spec known (steps.inter (wf.fairness c listed).reads)
      apply wf.greatest_spec (f := fun z => Region.interOver states (fun c => do
        let reached ← sys.least fun y => pure ((z.inter c).union (states.inter (sys.pre y)))
        return sys.pre reached) sys.fairness)
      · intro r steps
        refine ⟨fun ρ member => known.inside (Region.mem_inter_over.mp member).1, ?_⟩
        exact Region.reads_inter_over known.reads fun c listed => (wf.pre_spec (reached r steps c listed).1).1.reads
      · intro r steps
        ext ρ
        rw [Region.mem_inter_over]
        refine and_congr_right fun _ => forall₂_congr fun c listed => ?_
        show ρ ∈ (sys.pre _).members ↔ ρ ∈ sys.before _
        rw [(wf.pre_spec (reached r steps c listed).1).2, (reached r steps c listed).2, Region.members_inter]
      · exact fun X ρ member => known.inside member.1

theorem possible_spec {t : Team} (of : t.Of sys) (fairReads : fair.Reads sys.stateBit) (known : sys.StateSet states) :
    sys.StateSet (sys.possible fair t states) ∧
      (sys.possible fair t states).members = sys.suspects fair.members t states.members := by
  have inside := (known.inter wf.reachable_state_set.reads).inter fairReads
  refine ⟨sys.equivalents_state_set inside.moves, ?_⟩
  ext ρ
  unfold possible
  rw [wf.mem_equivalents of inside.moves]
  refine and_congr_right fun _ => exists_congr fun σ => ?_
  rw [Region.members_inter, Region.members_inter]
  exact ⟨fun ⟨⟨⟨here, reached⟩, fair⟩, _, same⟩ => ⟨here, reached, fair, same⟩,
    fun ⟨here, reached, fair, same⟩ => ⟨⟨⟨here, reached⟩, fair⟩, known.inside here, same⟩⟩

theorem possible_for_some_spec {t : Team} (of : t.Of sys) (fairReads : fair.Reads sys.stateBit) (known : sys.StateSet states) :
    sys.StateSet (sys.possibleForSome fair t states) ∧
      (sys.possibleForSome fair t states).members = sys.suspectsSome fair.members t states.members := by
  have each := fun w single => wf.possible_spec (t := w) (Team.single_of of single) fairReads known
  unfold possibleForSome
  constructor
  · refine Frame.StateSet.union_all fun r listed => ?_
    obtain ⟨w, single, rfl⟩ := List.mem_map.mp listed
    exact (each w single).1
  · ext ρ
    rw [Region.mem_union_all]
    simp only [List.mem_map, exists_exists_and_eq_and]
    refine exists_congr fun w => and_congr_right fun single => ?_
    rw [(each w single).2]

theorem possible_by_chain_spec {t : Team} (of : t.Of sys) (fairReads : fair.Reads sys.stateBit) (known : sys.StateSet states) :
    sys.StateSet (sys.possibleByChain fair t states).value ∧ (sys.possibleByChain fair t states).value.members =
      OrderHom.lfp (sys.suspectsChain fair.members t states.members) := by
  apply wf.least_spec (f := fun z => pure (sys.possibleForSome fair t (z.union states)))
  · exact fun r steps => (wf.possible_for_some_spec of fairReads (steps.union known)).1
  · intro r steps
    show Region.members (sys.possibleForSome fair t (r.union states)) = _
    rw [(wf.possible_for_some_spec of fairReads (steps.union known)).2, Region.members_union]
    rfl

end WellFormed

end System

end Coalition
