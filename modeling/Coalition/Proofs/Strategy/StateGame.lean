import Coalition.Proofs.Game.Duality
import Coalition.Proofs.Strategy.MoveGame
import Coalition.Strategy.StateGame

-- Games of a team that sees the whole state, computed on regions of states.

set_option autoImplicit false

namespace Coalition

-- The states. A state forces what one of its moves forces.
def System.stateArena (sys : System) (t : Team) : Arena Valuation where
  top := sys.statesMask.members
  force := ⟨fun X => {s | s ∈ sys.statesMask.members ∧ ∃ ρ ∈ (sys.arena t (sys.protocolOf t)).force X, sys.stateOf ρ = sys.stateOf s},
    fun _ _ le _ ⟨here, ρ, member, same⟩ => ⟨here, ρ, (sys.arena t (sys.protocolOf t)).force.mono le member, same⟩⟩
  constraints := sys.fairness.map (·.members)
  force_top _ _ member := member.1

namespace StateGame

structure Proper (g : StateGame) : Prop where
  system : g.sys.WellFormed
  team : g.team.Of g.sys
  protocol : g.protocol = g.sys.protocolOf g.team

def arena (g : StateGame) : Arena Valuation := g.sys.stateArena g.team

variable {g : StateGame} {left right target bad good : Region}

theorem outside_spec (g : StateGame) (reads : target.Reads g.sys.stateBit) : g.sys.StateSet (g.sys.statesOutside target) ∧
    (g.sys.statesOutside target).members = g.arena.top \ target.members := by
  refine ⟨Frame.StateSet.outside reads, ?_⟩
  rw [Frame.statesOutside, Region.members_diff]
  rfl

section

variable (proper : g.Proper)

include proper

theorem force_spec (reads : target.Reads g.sys.moveBit) : g.sys.StateSet (g.force target) ∧
    (g.force target).members = g.arena.force target.members := by
  have wf := proper.system
  have movesReads : (g.sys.forcingMoves g.team g.protocol target .univ).Reads g.sys.moveBit :=
    wf.forcing_reads (proper.protocol ▸ wf.protocol_reads g.team) reads (Region.reads_univ _)
  have forcing : ∀ ρ, ρ ∈ (g.sys.forcingMoves g.team g.protocol target .univ).members ↔
      ρ ∈ (g.sys.arena g.team (g.sys.protocolOf g.team)).force target.members := by
    intro ρ
    rw [wf.mem_forcing_moves proper.team reads, Region.members_univ, proper.protocol]
    refine and_congr_right fun _ => (and_iff_right trivial).trans (forall₂_congr fun τ _ => ?_)
    unfold Frame.HasState
    rw [Frame.state_of_next wf.laid]
  have same : (g.force target).members = g.arena.force target.members := by
    ext s
    refine (Frame.mem_hide_inputs wf.laid movesReads).trans ⟨?_, ?_⟩
    · rintro ⟨ρ, member, state⟩
      have forced := (forcing ρ).mp member
      have inside := (wf.protocol_inside proper.team forced.1).1
      rw [Frame.movesMask, Region.members_inter] at inside
      exact ⟨(Frame.mem_of_state g.sys.reads_states_mask state).mp inside.1, ρ, forced, state⟩
    · rintro ⟨_, ρ, forced, state⟩
      exact ⟨ρ, (forcing ρ).mpr forced, state⟩
  refine ⟨⟨?_, Frame.reads_hide_inputs movesReads⟩, same⟩
  rw [same]
  exact g.arena.force_top _

theorem computed : Computed g.arena g.sys.space.size g.sys.StateSet g.sys.statesMask g.sys.fairness g.force g.sys.statesOutside where
  reads _ := proper.system.state_set_range
  empty := Frame.StateSet.empty g.sys.toFrame
  union _ _ := Frame.StateSet.union
  inter _ _ known other := known.inter other.reads
  whole := Frame.StateSet.mask g.sys.toFrame
  top := rfl
  forces _ known := force_spec proper known.moves
  leaves c listed := g.outside_spec (proper.system.fairness c listed).reads
  constraints := rfl

theorem permit_spec (known : g.sys.StateSet target) : g.sys.StateSet (g.permit target) ∧
    (g.permit target).members = g.arena.permit target.members := by
  have hidden : target.hide g.sys.inputBits = target := by
    refine Region.members_injective (Set.ext fun ρ => ?_)
    rw [Frame.mem_hide_inputs proper.system.laid known.moves, Frame.has_state_of_reads known.reads]
  obtain ⟨outKnown, out⟩ := g.outside_spec known.reads
  obtain ⟨forcedKnown, forced⟩ := force_spec proper outKnown.moves
  have shape : g.permit target = g.sys.statesOutside (g.force (g.sys.statesOutside target)) := by
    unfold permit System.unavoidableStates force
    rw [hidden]
  rw [shape]
  refine ⟨Frame.StateSet.outside forcedKnown.reads, ?_⟩
  rw [(g.outside_spec forcedKnown.reads).2, forced, out]
  rfl

-- A position can be kept in by no move only where nothing can be played, and there nothing can be forced.
theorem force_empty : g.arena.force ∅ = ∅ := by
  refine Set.eq_empty_of_forall_notMem ?_
  rintro s ⟨_, ρ, ⟨inside, forced⟩, _⟩
  obtain ⟨_, τ, trans, _, same, plays⟩ := (proper.system.mem_protocol proper.team).mp inside
  obtain ⟨σ, none, _⟩ := forced τ trans same plays
  exact none

theorem unfair_spec : g.sys.StateSet g.unfair.value ∧ g.unfair.value.members = g.arena.unfair := (computed proper).unfair

theorem known_unfair_spec : g.sys.StateSet (if g.sys.fairness.isEmpty then .empty else g.unfair.value) ∧
    (if g.sys.fairness.isEmpty then .empty else g.unfair.value).members = g.arena.unfair := by
  cases free : g.sys.fairness.isEmpty with
  | true =>
      have none : g.arena.unfair = ∅ := g.arena.unfair_empty (by rw [(computed proper).constraints, List.isEmpty_iff.mp free]; rfl)
      exact ⟨Frame.StateSet.empty _, Region.members_empty.trans none.symm⟩
  | false => exact unfair_spec proper

theorem attract_spec {goal body : Region} (goalKnown : g.sys.StateSet goal) (bodyKnown : g.sys.StateSet body) :
    let reached := g.least fun y => pure (goal.union (body.inter (g.permit y)))
    g.sys.StateSet reached.value ∧ reached.value.members = OrderHom.lfp (g.arena.attract goal.members body.members) := by
  refine Region.members_least (f := fun y => pure (goal.union (body.inter (g.permit y)))) (computed proper).reads
    (fun r known => ?_) (fun r known => ?_) (Frame.StateSet.empty _)
  · exact goalKnown.union (bodyKnown.inter (permit_spec proper known).1.reads)
  · rw [Counted.value_pure, Region.members_union, Region.members_inter, (permit_spec proper known).2]
    rfl

theorem recur_spec {goal body : Region} (goalKnown : g.sys.StateSet goal) (bodyKnown : g.sys.StateSet body) :
    let kept := g.greatest fun z => do
      let stay ← Region.interOver body (fun c => do
        let reached ← g.least fun y => pure ((goal.union (z.inter c)).union (body.inter (g.permit y)))
        return g.permit reached) g.sys.fairness
      return goal.union stay
    g.sys.StateSet kept.value ∧ kept.value.members = OrderHom.gfp (g.arena.recur goal.members body.members) := by
  have reached := fun (z c : Region) (known : g.sys.StateSet z) (listed : c ∈ g.sys.fairness) =>
    attract_spec proper (show g.sys.StateSet (goal.union (z.inter c)) from
      goalKnown.union (known.inter (proper.system.fairness c listed).reads)) bodyKnown
  have each := fun (z c : Region) (known : g.sys.StateSet z) (listed : c ∈ g.sys.fairness) =>
    permit_spec proper (reached z c known listed).1
  have stay : ∀ z, g.sys.StateSet z → ∀ ρ, ρ ∈ (Region.interOver body (fun c => do
        let reached ← g.least fun y => pure ((goal.union (z.inter c)).union (body.inter (g.permit y)))
        return g.permit reached) g.sys.fairness).value.members ↔
      ρ ∈ body.members ∧ ∀ c ∈ g.sys.fairness, ρ ∈ g.arena.permit (OrderHom.lfp
        (g.arena.attract (goal.members ∪ z.members ∩ c.members) body.members)) := by
    intro z known ρ
    rw [Region.mem_inter_over]
    refine and_congr_right fun _ => forall₂_congr fun c listed => ?_
    rw [← Region.members_inter, ← Region.members_union, ← (reached z c known listed).2, ← (each z c known listed).2]
    rfl
  refine Region.members_greatest (F := g.arena.recur goal.members body.members) (computed proper).reads (fun z known => ?_)
    (fun z known => ?_) (Frame.StateSet.mask _) fun X ρ member => ?_
  · refine goalKnown.union ⟨fun ρ member => bodyKnown.inside ((stay z known ρ).mp member).1, ?_⟩
    exact Region.reads_inter_over bodyKnown.reads fun c listed => (each z c known listed).1.reads
  · rw [Counted.value_bind, Counted.value_pure, Region.members_union]
    refine congrArg (goal.members ∪ ·) (Set.ext fun ρ => ?_)
    rw [stay z known]
    refine and_congr_right fun _ => ?_
    show _ ↔ ∀ d ∈ g.sys.fairness.map (·.members), _
    rw [List.forall_mem_map]
  · rcases member with won | stays
    · exact goalKnown.inside won
    · exact bodyKnown.inside stays.1

theorem fair_spec : g.sys.StateSet g.fair.value ∧ g.fair.value.members = g.arena.sound := by
  have mask := Frame.StateSet.mask g.sys.toFrame
  have kept : ∀ X, g.arena.top ∩ g.arena.permit X = g.arena.permit X := fun X => Set.inter_eq_right.mpr (g.arena.permit_subset_top X)
  unfold fair permitAlways
  cases free : g.sys.fairness.isEmpty with
  | true =>
      have none : g.arena.unfair = ∅ := g.arena.unfair_empty (by rw [(computed proper).constraints, List.isEmpty_iff.mp free]; rfl)
      have whole : OrderHom.gfp g.arena.permit = g.arena.sound := by
        have fixed : g.arena.permit g.arena.top = g.arena.top := by
          show g.arena.top \ g.arena.force (g.arena.top \ g.arena.top) = g.arena.top
          rw [Set.sdiff_self, force_empty proper, Set.sdiff_empty]
        unfold Arena.sound
        rw [none, Set.sdiff_empty]
        refine Set.Subset.antisymm ?_ (OrderHom.le_gfp _ fixed.ge)
        rw [← OrderHom.map_gfp]
        exact g.arena.permit_subset_top _
      rw [if_pos rfl, ← whole]
      refine Region.members_greatest (f := fun z => pure (g.sys.statesMask.inter (g.permit z))) (computed proper).reads
        (fun r known => mask.inter (permit_spec proper known).1.reads) (fun r known => ?_) mask g.arena.permit_subset_top
      rw [Counted.value_pure, Region.members_inter, (permit_spec proper known).2]
      exact kept _
  | false =>
      have spec := recur_spec proper (Frame.StateSet.empty g.sys.toFrame) mask
      simp only [Region.empty_union, Region.members_empty] at spec
      rw [if_neg Bool.false_ne_true, ← Arena.recur_everywhere]
      exact spec

theorem forces_spec (kind : GoalKind) (leftKnown : g.sys.StateSet left) (rightKnown : g.sys.StateSet right)
    (badKnown : g.sys.StateSet bad) (bads : bad.members = g.arena.unfair) :
    let won : Counted Region := match kind with
      | .next => pure (g.forceNext bad right)
      | .strong => g.forceStrong bad left right
      | .weak => g.forceWeak bad left right
    g.sys.StateSet won.value ∧ won.value.members = g.arena.wins kind left.members right.members := by
  have operand : ∀ {r : Region}, g.sys.StateSet r → r.members ∩ g.arena.top = r.members := fun known =>
    Set.inter_eq_left.mpr known.inside
  cases kind with
  | next =>
      obtain ⟨known, same⟩ := force_spec proper (show (right.union bad).Reads g.sys.moveBit from (rightKnown.union badKnown).moves)
      refine ⟨known, same.trans ?_⟩
      rw [Region.members_union, bads]
      rfl
  | strong =>
      show g.sys.StateSet (g.forceStrong bad left right).value ∧
        (g.forceStrong bad left right).value.members = g.arena.strong (left.members ∩ g.arena.top) (right.members ∩ g.arena.top)
      rw [operand leftKnown, operand rightKnown, Arena.strong, (computed proper).fair]
      unfold forceStrong
      cases free : g.sys.fairness.isEmpty with
      | true => exact (computed proper).approach leftKnown rightKnown
      | false => exact (computed proper).approachFair leftKnown rightKnown badKnown bads rightKnown.inside
  | weak =>
      show g.sys.StateSet (g.forceWeak bad left right).value ∧
        (g.forceWeak bad left right).value.members = g.arena.weak (left.members ∩ g.arena.top) (right.members ∩ g.arena.top)
      rw [operand leftKnown, operand rightKnown]
      exact (computed proper).weak leftKnown rightKnown badKnown bads rightKnown.inside

theorem permits_spec (kind : GoalKind) (leftKnown : g.sys.StateSet left) (rightKnown : g.sys.StateSet right)
    (goodReads : good.Reads g.sys.stateBit) (goods : kind = .weak ∧ g.sys.fairness.isEmpty = true ∨ good.members = g.arena.sound) :
    let kept : Counted Region := match kind with
      | .next => pure (g.permitNext good right)
      | .strong => g.permitStrong good left right
      | .weak => g.permitWeak good left right
    g.sys.StateSet kept.value ∧ kept.value.members = g.arena.permits kind left.members right.members := by
  have goalKnown : g.sys.StateSet (right.inter good) := rightKnown.inter goodReads
  have goal : good.members = g.arena.sound → (right.inter good).members = right.members ∩ g.arena.sound := fun same => by
    rw [Region.members_inter, same]
  cases kind with
  | next =>
      have same := goods.resolve_left fun weak => GoalKind.noConfusion weak.1
      obtain ⟨known, members⟩ := permit_spec proper goalKnown
      exact ⟨known, members.trans (by rw [goal same]; rfl)⟩
  | strong =>
      have same := goods.resolve_left fun weak => GoalKind.noConfusion weak.1
      obtain ⟨known, members⟩ := attract_spec proper goalKnown leftKnown
      exact ⟨known, members.trans (by rw [goal same]; rfl)⟩
  | weak =>
      show g.sys.StateSet (g.permitWeak good left right).value ∧
        (g.permitWeak good left right).value.members = g.arena.permitWeak left.members right.members
      rw [Arena.permitWeak, (computed proper).fair]
      unfold permitWeak
      cases free : g.sys.fairness.isEmpty with
      | true =>
          refine Region.members_greatest (f := fun z => pure (right.union (left.inter (g.permit z)))) (computed proper).reads
            (fun r known => ?_) (fun r known => ?_) (Frame.StateSet.mask _) fun X => ?_
          · exact rightKnown.union (leftKnown.inter (permit_spec proper known).1.reads)
          · rw [Counted.value_pure, Region.members_union, Region.members_inter, (permit_spec proper known).2]
            rfl
          · exact Set.union_subset rightKnown.inside (Set.inter_subset_left.trans leftKnown.inside)
      | false =>
          have same := goods.resolve_left fun weak => Bool.false_ne_true (free.symm.trans weak.2)
          obtain ⟨known, members⟩ := recur_spec proper goalKnown leftKnown
          rw [goal same] at members
          exact ⟨known, members⟩

end

end StateGame

end Coalition
