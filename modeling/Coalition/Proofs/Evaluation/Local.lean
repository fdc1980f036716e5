import Coalition.Proofs.Evaluation.Temporal

-- Where the answer of an operator depends on its operands.

set_option autoImplicit false

namespace Coalition

namespace System

def Stable (sys : System) (K : Set Valuation) : Prop := ∀ ρ ∈ K, ∀ u, sys.Step (sys.stateOf ρ) u → u ∈ K

variable {sys : System} {fair left right X K : Set Valuation}

theorem Stable.before (stable : sys.Stable K) : K ∩ sys.before X ⊆ sys.before (X ∩ K) := by
  rintro ρ ⟨here, u, inside, step⟩
  exact ⟨u, ⟨inside, stable ρ here u step⟩, step⟩

theorem Stable.approach (stable : sys.Stable K) :
    OrderHom.lfp (sys.approach fair (left ∩ K) (right ∩ K)) = K ∩ OrderHom.lfp (sys.approach fair left right) := by
  apply Set.Subset.antisymm
  · refine Set.subset_inter (OrderHom.lfp_le _ ?_) (sys.approach_mono Set.inter_subset_left Set.inter_subset_left)
    exact Set.union_subset Set.inter_subset_right (Set.inter_subset_left.trans Set.inter_subset_right)
  · suffices all : OrderHom.lfp (sys.approach fair left right) ⊆
        {ρ | ρ ∈ K → ρ ∈ OrderHom.lfp (sys.approach fair (left ∩ K) (right ∩ K))} from fun ρ member => all member.2 member.1
    refine OrderHom.lfp_le _ ?_
    rintro ρ (goal | ⟨through, near⟩) here <;> rw [← OrderHom.map_lfp]
    · exact .inl ⟨goal, here⟩
    · obtain ⟨u, ⟨⟨known, good⟩, inside⟩, step⟩ := stable.before ⟨here, near⟩
      exact .inr ⟨⟨through, here⟩, u, ⟨known inside, good⟩, step⟩

theorem Stable.always (stable : sys.Stable K) : sys.always (X ∩ K) = K ∩ sys.always X := by
  unfold System.always
  split
  · apply Set.Subset.antisymm
    · refine Set.subset_inter ?_ (OrderHom.gfp.mono fun Z => Set.inter_subset_inter_left _ Set.inter_subset_left)
      rw [← OrderHom.map_gfp]
      exact Set.inter_subset_left.trans Set.inter_subset_right
    · refine OrderHom.le_gfp _ ?_
      rintro ρ ⟨here, stays⟩
      rw [← OrderHom.map_gfp] at stays
      obtain ⟨u, inside, step⟩ := stable.before ⟨here, stays.2⟩
      exact ⟨⟨stays.1, here⟩, u, ⟨inside.2, inside.1⟩, step⟩
  · apply Set.Subset.antisymm
    · refine Set.subset_inter ?_ (OrderHom.gfp.mono fun Z ρ member => ⟨member.1.1, fun c listed =>
        sys.before.mono (sys.approach_mono Set.inter_subset_left (Set.Subset.refl _)) (member.2 c listed)⟩)
      rw [← OrderHom.map_gfp]
      exact fun ρ member => member.1.2
    · refine OrderHom.le_gfp _ ?_
      rintro ρ ⟨here, stays⟩
      rw [← OrderHom.map_gfp] at stays
      refine ⟨⟨stays.1, here⟩, fun c listed => ?_⟩
      obtain ⟨u, inside, step⟩ := stable.before ⟨here, stays.2 c listed⟩
      refine ⟨u, ?_, step⟩
      have within := stable.approach.ge ⟨inside.2, inside.1⟩
      rwa [Set.inter_right_comm, Set.inter_comm (OrderHom.gfp _)] at within

namespace WellFormed

variable (wf : sys.WellFormed) {f p q on states : Region} {t : Team}

include wf

theorem reach_from_stable (known : sys.StateSet states) : sys.Stable (sys.reachFrom states).members := by
  have led := (wf.reach_from_spec known.moves).2
  intro ρ here u step
  obtain ⟨σ, start, linked⟩ := (led ρ).mp here
  refine (led u).mpr ⟨σ, start, linked.tail ?_⟩
  obtain ⟨τ, trans, from_, rfl⟩ := step
  exact ⟨τ, trans, from_, (Frame.state_of_next wf.laid τ).symm⟩

theorem subset_reach_from (known : sys.StateSet states) : states.members ⊆ (sys.reachFrom states).members := by
  intro ρ here
  exact ((wf.reach_from_spec known.moves).2 ρ).mpr ⟨ρ, (known.states_of wf.laid).symm ▸ here, .refl⟩

theorem inter_eq_of_stable {r s : Region} (known : sys.StateSet states) (same : r.members = (sys.reachFrom states).members ∩ s.members) :
    r.inter states = s.inter states := by
  refine Region.members_injective ?_
  rw [Region.members_inter, Region.members_inter, same, Set.inter_assoc, Set.inter_comm, Set.inter_assoc,
    Set.inter_eq_left.mpr (wf.subset_reach_from known)]

section

variable (fairReads : f.Reads sys.stateBit) (pKnown : sys.StateSet p) (known : sys.StateSet states)

include fairReads pKnown known

theorem some_next_local : (sys.someNext f (p.inter (sys.post states))).inter states = (sys.someNext f p).inter states := by
  have led := wf.post_state_set known.moves
  refine Region.members_injective ?_
  rw [Region.members_inter, Region.members_inter, (wf.some_next_spec fairReads (pKnown.inter led.reads)).2,
    (wf.some_next_spec fairReads pKnown).2, Region.members_inter]
  ext ρ
  refine and_congr_left fun here => ⟨fun ⟨u, inside, step⟩ => ⟨u, ⟨inside.1.1, inside.2⟩, step⟩, fun ⟨u, inside, step⟩ => ?_⟩
  refine ⟨u, ⟨⟨inside.1, (wf.mem_post_states known.reads).mpr ⟨ρ, here, ?_⟩⟩, inside.2⟩, step⟩
  obtain ⟨τ, trans, from_, rfl⟩ := step
  exact ⟨τ, trans, from_, (Frame.state_of_next wf.laid τ).symm⟩

omit fairReads in
theorem some_always_local :
    (sys.someAlways (p.inter (sys.reachFrom states))).value.inter states = (sys.someAlways p).value.inter states := by
  have led := (wf.reach_from_spec known.moves).1
  refine wf.inter_eq_of_stable known ?_
  rw [(wf.some_always_spec (pKnown.inter led.reads)).2, (wf.some_always_spec pKnown).2, Region.members_inter]
  exact (wf.reach_from_stable known).always

theorem some_until_local (qKnown : sys.StateSet q) :
    (sys.someUntil f (p.inter (sys.reachFrom states)) (q.inter (sys.reachFrom states))).value.inter states =
      (sys.someUntil f p q).value.inter states := by
  have led := (wf.reach_from_spec known.moves).1
  refine wf.inter_eq_of_stable known ?_
  rw [(wf.some_until_spec fairReads (pKnown.inter led.reads).reads (qKnown.inter led.reads)).2,
    (wf.some_until_spec fairReads pKnown.reads qKnown).2, Region.members_inter, Region.members_inter,
    ← (wf.reach_from_stable known).approach]
  congr 2
  ext ρ
  exact ⟨fun h => ⟨⟨⟨h.1.1.1, h.1.2⟩, h.2⟩, h.1.1.2⟩, fun h => ⟨⟨⟨h.1.1.1, h.2⟩, h.1.1.2⟩, h.1.2⟩⟩

variable (of : t.Of sys)

include of

theorem possible_local : (sys.possible f t (p.inter (sys.equivalents t states))).inter states = (sys.possible f t p).inter states := by
  have near := sys.equivalents_state_set (t := t) known.moves
  refine Region.members_injective ?_
  rw [Region.members_inter, Region.members_inter, (wf.possible_spec of fairReads (pKnown.inter near.reads)).2,
    (wf.possible_spec of fairReads pKnown).2, Region.members_inter]
  ext ρ
  refine and_congr_left fun here => and_congr_right fun state => exists_congr fun σ => ?_
  refine ⟨fun ⟨inside, rest⟩ => ⟨inside.1, rest⟩, fun ⟨inside, reached, good, same⟩ => ⟨⟨inside, ?_⟩, reached, good, same⟩⟩
  exact (wf.mem_equivalents of known.moves).mpr ⟨pKnown.inside inside, ρ, here, known.inside here, same.symm⟩

omit wf fairReads pKnown of in
theorem equivalents_for_some_state_set : sys.StateSet (sys.equivalentsForSome t states) := by
  refine Frame.StateSet.union_all fun r listed => ?_
  obtain ⟨w, _, rfl⟩ := List.mem_map.mp listed
  exact sys.equivalents_state_set known.moves

omit fairReads pKnown in
theorem mem_equivalents_for_some {ρ : Valuation} : ρ ∈ (sys.equivalentsForSome t states).members ↔
    ρ ∈ sys.statesMask.members ∧ ∃ w ∈ t.singles, ∃ σ ∈ states.members, w.Same σ ρ := by
  unfold equivalentsForSome
  rw [Region.mem_union_all]
  simp only [List.mem_map, exists_exists_and_eq_and]
  constructor
  · rintro ⟨w, single, inside⟩
    obtain ⟨state, σ, here, _, same⟩ := (wf.mem_equivalents (Team.single_of of single) known.moves).mp inside
    exact ⟨state, w, single, σ, here, same⟩
  · rintro ⟨state, w, single, σ, here, same⟩
    exact ⟨w, single, (wf.mem_equivalents (Team.single_of of single) known.moves).mpr ⟨state, σ, here, known.inside here, same⟩⟩

theorem possible_for_some_local :
    (sys.possibleForSome f t (p.inter (sys.equivalentsForSome t states))).inter states = (sys.possibleForSome f t p).inter states := by
  have near := equivalents_for_some_state_set (t := t) known
  refine Region.members_injective ?_
  rw [Region.members_inter, Region.members_inter, (wf.possible_for_some_spec of fairReads (pKnown.inter near.reads)).2,
    (wf.possible_for_some_spec of fairReads pKnown).2, Region.members_inter]
  ext ρ
  refine and_congr_left fun here => exists_congr fun w => and_congr_right fun single => and_congr_right fun _ =>
    exists_congr fun σ => ?_
  refine ⟨fun ⟨inside, rest⟩ => ⟨inside.1, rest⟩, fun ⟨inside, reached, good, same⟩ => ⟨⟨inside, ?_⟩, reached, good, same⟩⟩
  exact (mem_equivalents_for_some wf known of).mpr ⟨pKnown.inside inside, w, single, ρ, here, same.symm⟩

omit fairReads pKnown in
theorem equivalents_by_chain_spec : sys.StateSet (sys.equivalentsByChain t states).value ∧
    states.members ⊆ (sys.equivalentsByChain t states).value.members ∧
    ∀ ρ ∈ (sys.equivalentsByChain t states).value.members, ∀ σ ∈ sys.reachable.members, ∀ w ∈ t.singles, w.Same σ ρ →
      σ ∈ (sys.equivalentsByChain t states).value.members := by
  let link : Set Valuation →o Set Valuation :=
    ⟨fun Z => states.members ∪ {ρ | ρ ∈ sys.reachable.members ∧ ∃ w ∈ t.singles, ∃ σ ∈ Z, w.Same σ ρ},
      fun _ _ le => Set.union_subset_union_right _ fun _ ⟨reached, w, single, σ, inside, same⟩ =>
        ⟨reached, w, single, σ, le inside, same⟩⟩
  have spec : sys.StateSet (sys.equivalentsByChain t states).value ∧
      (sys.equivalentsByChain t states).value.members = OrderHom.lfp link := by
    refine wf.least_spec (f := fun z => pure (states.union ((sys.equivalentsForSome t z).inter sys.reachable))) (fun r steps => ?_) fun r steps => ?_
    · exact known.union ((equivalents_for_some_state_set steps).inter wf.reachable_state_set.reads)
    · show Region.members (Region.union _ _) = _
      rw [Region.members_union, Region.members_inter]
      refine congrArg (states.members ∪ ·) (Set.ext fun ρ => ?_)
      rw [Set.mem_inter_iff, mem_equivalents_for_some wf steps of]
      exact ⟨fun both => ⟨both.2, both.1.2⟩, fun both => ⟨⟨wf.reachable_state_set.inside both.1, both.2⟩, both.1⟩⟩
  refine ⟨spec.1, ?_⟩
  rw [spec.2]
  refine ⟨fun ρ here => ?_, fun ρ here σ reached w single same => ?_⟩ <;> rw [← OrderHom.map_lfp]
  · exact .inl here
  · exact .inr ⟨reached, w, single, ρ, here, same.symm⟩

theorem possible_by_chain_local : (sys.possibleByChain f t (p.inter (sys.equivalentsByChain t states).value)).value.inter states =
    (sys.possibleByChain f t p).value.inter states := by
  obtain ⟨near, start, linked⟩ := equivalents_by_chain_spec wf known of
  refine Region.members_injective ?_
  rw [Region.members_inter, Region.members_inter, (wf.possible_by_chain_spec of fairReads (pKnown.inter near.reads)).2,
    (wf.possible_by_chain_spec of fairReads pKnown).2, Region.members_inter]
  apply Set.Subset.antisymm
  · refine Set.inter_subset_inter_left _ (OrderHom.lfp.mono fun Z => ?_)
    exact (sys.suspectsSome f.members t).mono (Set.union_subset_union_right _ Set.inter_subset_left)
  · suffices all : OrderHom.lfp (sys.suspectsChain f.members t p.members) ⊆
        {ρ | ρ ∈ (sys.equivalentsByChain t states).value.members →
          ρ ∈ OrderHom.lfp (sys.suspectsChain f.members t (p.members ∩ (sys.equivalentsByChain t states).value.members))} from
      fun ρ member => ⟨all member.1 (start member.2), member.2⟩
    refine OrderHom.lfp_le _ ?_
    rintro ρ ⟨w, single, state, σ, inside, reached, good, same⟩ here
    have there := linked ρ here σ reached w single same
    rw [← OrderHom.map_lfp]
    exact ⟨w, single, state, σ, inside.imp (fun chain => chain there) (fun here => ⟨here, there⟩), reached, good, same⟩

end

end WellFormed

end System

end Coalition
