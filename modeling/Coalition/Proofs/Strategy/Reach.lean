import Coalition.Proofs.Strategy.Maximal

-- What extending a partial strategy lists for a team that chooses as a whole.

set_option autoImplicit false

namespace Coalition

namespace Splitter

-- In every state that the strategy leads to within some moves it goes on, or it plays otherwise than each move of the protocol there in a
-- state that looks the same.
def Closed (sp : Splitter) (protocol moves s : Region) : Prop :=
  ∀ τ ∈ sp.sys.trans.members, τ ∈ moves.members → τ ∈ s.members →
    (∃ σ ∈ s.members, sp.sys.stateOf σ = sp.sys.nextOf τ) ∨
    ∀ ρ ∈ protocol.members, sp.sys.stateOf ρ = sp.sys.nextOf τ → ∃ σ ∈ s.members, sp.team.Same σ ρ ∧ ¬ sp.team.Plays σ ρ

variable {sp : Splitter} {protocol moves strategy : Region}

section

variable (wf : sp.sys.WellFormed) (movesReads : moves.Reads sp.sys.moveBit)

include wf movesReads

theorem closed_of_fresh (reads : strategy.Reads sp.sys.moveBit)
    (odds : ∀ ρ ∈ ((sp.freshStates strategy moves).inter protocol).members, ∃ σ ∈ strategy.members, sp.team.Same σ ρ ∧ ¬ sp.team.Plays σ ρ) :
    sp.Closed protocol moves strategy := by
  intro τ trans moved chosen
  by_cases known : ∃ σ ∈ strategy.members, sp.sys.stateOf σ = sp.sys.nextOf τ
  · exact .inl known
  · refine .inr fun ρ possible state => odds ρ ?_
    rw [Region.members_inter]
    exact ⟨(mem_fresh_states wf movesReads reads).mpr ⟨⟨τ, trans, moved, chosen, state.symm⟩, state ▸ known⟩, possible⟩

end

theorem odds_or_agreeing {w : Team} {s : Set Valuation} (agreeing : Agreeing [w] s) (ρ : Valuation) :
    (∃ σ ∈ s, w.Same σ ρ ∧ ¬ w.Plays σ ρ) ∨ Agreeing [w] ({ρ} ∪ s) := by
  by_cases odds : ∃ σ ∈ s, w.Same σ ρ ∧ ¬ w.Plays σ ρ
  · exact .inl odds
  · have like : ∀ σ ∈ s, w.Same σ ρ → w.Plays σ ρ := fun σ here same => not_not.mp fun other => odds ⟨σ, here, same, other⟩
    refine .inr ?_
    rintro x viewer μ (rfl | here) ν (rfl | there) same
    all_goals rw [List.mem_singleton.mp viewer] at same ⊢
    · exact .refl w _
    · exact (like ν there same.symm).symm
    · exact like μ here same
    · exact agreeing w (List.mem_singleton.mpr rfl) μ here ν there same

theorem exact_part_unique {viewers : List Team} {fixed M S : Set Valuation} {parts : List Region} (exact_ : Exact viewers fixed M parts)
    (agreeing : Agreeing viewers S) (fixedInside : fixed ⊆ S) {r s : Region} (listed : r ∈ parts) (known : s ∈ parts)
    (inside : r.members ⊆ S) (insideToo : s.members ⊆ S) : r = s := by
  have within : ∀ {r s : Region}, r ∈ parts → s ∈ parts → r.members ⊆ S → s.members ⊆ S → r.members ⊆ s.members := by
    intro r s listed known inside insideToo
    have both := (exact_.solid s known).maximal (exact_.reaches s known) (T := r.members ∪ s.members) Set.subset_union_right
      (Set.union_subset (exact_.inside r listed) (exact_.inside s known))
      (agreeing.mono (Set.union_subset (Set.union_subset inside insideToo) fixedInside))
    exact Set.subset_union_left.trans both
  exact Region.members_injective (Set.Subset.antisymm (within listed known inside insideToo) (within known listed insideToo inside))

structure ClosedExtensions (sp : Splitter) (protocol moves start : Region) (e : Enumeration Region) : Prop extends
    sp.Extensions protocol start e where
  distinct : e.items.Nodup
  closed : ∀ s ∈ e.items, sp.Closed protocol moves s

theorem closed_single (start : sp.Partial protocol strategy) (closed : sp.Closed protocol moves strategy) :
    sp.ClosedExtensions protocol moves strategy (.single strategy) :=
  ⟨extensions_single start, List.nodup_singleton _, fun _ listed => List.mem_singleton.mp listed ▸ closed⟩

-- The extensions with each of some exact parts have none in common.
theorem ClosedExtensions.bind {M : Set Valuation} {parts : Enumeration Region} {later : Region → Enumeration Region}
    (ends : parts.error? = none) (some : ∃ part, part ∈ parts.items)
    (exact_ : Exact (sp.team.viewers sp.semantics) strategy.members M parts.items)
    (each : ∀ part ∈ parts.items, sp.ClosedExtensions protocol moves (strategy.union part) (later part)) :
    sp.ClosedExtensions protocol moves strategy (parts.bind later) := by
  obtain ⟨laterEnds, items⟩ := Enumeration.bind_spec ends fun part listed => (each part listed).ends
  have above : ∀ part ∈ parts.items, ∀ s ∈ (later part).items, strategy.members ⊆ s.members ∧ part.members ⊆ s.members := by
    intro part listed s member
    have whole := (each part listed).above s member
    rw [Region.members_union] at whole
    exact ⟨Set.subset_union_left.trans whole, Set.subset_union_right.trans whole⟩
  refine ⟨⟨laterEnds, ?_, ?_, ?_⟩, ?_, ?_⟩ <;> rw [items]
  · obtain ⟨part, known⟩ := some
    obtain ⟨s, member⟩ := (each part known).some
    exact ⟨s, List.mem_flatMap.mpr ⟨part, known, member⟩⟩
  · intro s listed
    obtain ⟨part, known, member⟩ := List.mem_flatMap.mp listed
    exact (above part known s member).1
  · intro s listed
    obtain ⟨part, known, member⟩ := List.mem_flatMap.mp listed
    exact (each part known).each s member
  · rw [List.nodup_flatMap]
    refine ⟨fun part listed => (each part listed).distinct, exact_.distinct.imp_of_mem fun {part other} listed known different => ?_⟩
    rw [Function.onFun, List.disjoint_left]
    intro s member memberToo
    obtain ⟨start, inside⟩ := above part listed s member
    obtain ⟨_, insideToo⟩ := above other known s memberToo
    exact different (exact_part_unique exact_ ((each part listed).each s member).agreeing start listed known inside insideToo)
  · intro s listed
    obtain ⟨part, known, member⟩ := List.mem_flatMap.mp listed
    exact (each part known).closed s member

section

variable (wf : sp.sys.WellFormed) (of : sp.team.Of sp.sys) (group : sp.semantics = .group) (played : sp.sys.PlayedSet protocol)
  (movesReads : moves.Reads sp.sys.moveBit)

include wf of group played movesReads

theorem extend_from_closed (fuel : Nat) (start : sp.Partial protocol strategy) (enough : sp.bound ≤ sp.sys.moveCount strategy + fuel) :
    sp.ClosedExtensions protocol moves strategy (sp.extendFrom protocol moves fuel strategy) := by
  induction fuel generalizing strategy with
  | zero => exact absurd (System.move_count_bound sp.semantics sp.team strategy) (Nat.not_lt.mpr enough)
  | succ fuel ih =>
      obtain ⟨none, same⟩ | ⟨same, parts, next⟩ := extend_step wf of played movesReads fuel start
      · rw [same]
        exact closed_single start (closed_of_fresh wf movesReads start.reads fun ρ inside => absurd inside (none ▸ Set.notMem_empty ρ))
      · have viewers : sp.team.viewers sp.semantics = [sp.team] := by rw [group]; rfl
        have addedPlayed : sp.sys.PlayedSet ((sp.freshStates strategy moves).inter protocol) :=
          played.sub (by rw [Region.members_inter]; exact Set.inter_subset_right)
            (((fresh_states_reads wf movesReads start.reads).mono sp.sys.state_subset_move).inter played.reads)
        have exact_ := split_group_exact wf (played.sub start.inside start.reads) of start.agreeing group addedPlayed
        rw [same]
        refine ClosedExtensions.bind parts.ends (parts.some start.agreeing) exact_ fun part listed => ?_
        obtain ⟨partial_, more⟩ := next part listed
        split
        · -- a part that brings in nothing is empty, so that all fresh moves are at odds with the strategy
          rename_i nothing
          rw [nothing]
          refine closed_single start (closed_of_fresh wf movesReads start.reads fun ρ inside => ?_)
          refine (odds_or_agreeing (viewers ▸ start.agreeing) ρ).resolve_right fun agreeing => ?_
          obtain ⟨σ, chosen, _⟩ := exact_.reaches part listed ρ inside (viewers ▸ agreeing)
          have fresh := parts.inside part listed chosen
          rw [Region.members_inter] at fresh
          have own : σ ∈ strategy.members := nothing ▸ (Region.members_union strategy part ▸ .inr chosen)
          exact ((mem_fresh_states wf movesReads start.reads).mp fresh.1).2 ⟨σ, own, rfl⟩
        · rename_i different
          have less := more different
          exact ih partial_ (by omega)

end

theorem lamp_starts : ∃ sys t, lamp.build = .ok sys ∧ sys.team ["hand"] = .ok t ∧ ((sys.protocolOf t).inter sys.init).isEmpty = false := by
  have starts : (do
      let sys ← lamp.build
      let t ← sys.team ["hand"]
      return ((sys.protocolOf t).inter sys.init).isEmpty).toOption = some false := by decide +kernel
  obtain ⟨sys, built, rest⟩ := ok_of_bind (ok_of_to_option starts)
  obtain ⟨t, coalition, rest⟩ := ok_of_bind rest
  exact ⟨sys, t, built, coalition, Except.ok.inj rest⟩

/-- Extending a uniform part of the protocol of a team that chooses as a whole ends, and lists uniform parts of the protocol that contain
it, no two of them the same. Each goes on in every state it leads to within the given moves, unless every move of the protocol there has
another action than the strategy plays where the team sees the same. -/
theorem extensions_closed {d : Description} (built : d.build = .ok sp.sys) {names : List String}
    (coalition : sp.sys.team names = .ok sp.team) (group : sp.semantics = .group)
    (strategyTold : sp.sys.Told {b | b ∈ sp.team.actionBits} strategy) (inside : strategy.members ⊆ (sp.sys.protocolOf sp.team).members)
    (uniform : Agreeing [sp.team] strategy.members)
    (movesTold : sp.sys.Told {b | b ∈ sp.team.actionBits} moves) :
    (sp.extend (sp.sys.protocolOf sp.team) strategy moves).error? = none ∧
      (∀ s ∈ (sp.extend (sp.sys.protocolOf sp.team) strategy moves).items,
        strategy.members ⊆ s.members ∧ s.members ⊆ (sp.sys.protocolOf sp.team).members ∧
        sp.sys.Told {b | b ∈ sp.team.actionBits} s ∧ Agreeing [sp.team] s.members ∧ sp.Closed (sp.sys.protocolOf sp.team) moves s) ∧
      (sp.extend (sp.sys.protocolOf sp.team) strategy moves).items.Nodup := by
  have wf := d.build_well_formed _ built
  obtain ⟨of, _⟩ := System.team_spec coalition
  have viewers : sp.team.viewers sp.semantics = [sp.team] := by rw [group]; rfl
  have played := wf.protocol_played of
  have movesReads := movesTold.played.reads
  have start : sp.Partial (sp.sys.protocolOf sp.team) strategy := ⟨inside, strategyTold.played.reads, viewers ▸ uniform⟩
  have extensions := extend_from_closed wf of group played movesReads sp.bound start (Nat.le_add_left _ _)
  have actions : {b | b ∈ sp.team.actionBits} ⊆ sp.sys.inputBit := fun b acts => wf.action_bit of acts
  have told := extend_told wf actions (fun b acts => acts) of (wf.protocol_told of) movesReads strategyTold
  refine ⟨extensions.ends, fun s listed => ?_, extensions.distinct⟩
  have each := extensions.each s listed
  exact ⟨extensions.above s listed, each.inside, told s listed, viewers ▸ each.agreeing, extensions.closed s listed⟩

theorem extensions_closed_lamp : ∃ (sp : Splitter) (strategy : Region), lamp.build = .ok sp.sys ∧
    sp.sys.team ["hand"] = .ok sp.team ∧ sp.semantics = .group ∧ strategy.members.Nonempty ∧
    strategy.members ⊆ sp.sys.init.members ∧
    (sp.extend (sp.sys.protocolOf sp.team) strategy (sp.sys.protocolOf sp.team)).error? = none ∧
    (∀ s ∈ (sp.extend (sp.sys.protocolOf sp.team) strategy (sp.sys.protocolOf sp.team)).items,
      strategy.members ⊆ s.members ∧ s.members ⊆ (sp.sys.protocolOf sp.team).members ∧
      sp.sys.Told {b | b ∈ sp.team.actionBits} s ∧ Agreeing [sp.team] s.members ∧
      sp.Closed (sp.sys.protocolOf sp.team) (sp.sys.protocolOf sp.team) s) ∧
    (sp.extend (sp.sys.protocolOf sp.team) strategy (sp.sys.protocolOf sp.team)).items.Nodup := by
  obtain ⟨sys, t, built, coalition, starts⟩ := lamp_starts
  have wf := lamp.build_well_formed sys built
  obtain ⟨of, _⟩ := System.team_spec coalition
  let sp : Splitter := ⟨sys, t, .group⟩
  have told := (wf.protocol_told of).states wf.init.reads
  have parts : Parts sys [t] Region.empty.members ((sys.protocolOf t).inter sys.init).members
      (sp.split ((sys.protocolOf t).inter sys.init) .empty) :=
    @split_spec sp _ _ wf ⟨by simp, by simp, Region.reads_empty _⟩ of (by simp [Agreeing]) told.played
  obtain ⟨ρ, first⟩ := Region.not_empty_members.mp starts
  obtain ⟨strategy, listed, le⟩ := parts.complete {ρ} (Set.singleton_subset_iff.mpr first) (by simpa using agreeing_alone [t] ρ)
  have inside := parts.inside strategy listed
  rw [Region.members_inter] at inside
  have actions : {b | b ∈ t.actionBits} ⊆ sys.inputBit := fun b acts => wf.action_bit of acts
  have strategyTold : sys.Told {b | b ∈ t.actionBits} strategy := @split_told sp _ _ _ wf actions (fun b acts => acts) of told strategy listed
  have uniform : Agreeing [t] strategy.members := (parts.agreeing strategy listed).mono Set.subset_union_left
  exact ⟨sp, strategy, built, coalition, rfl, ⟨ρ, le rfl⟩, fun σ member => (inside member).2,
    @extensions_closed sp _ _ _ built _ coalition rfl strategyTold (fun σ member => (inside member).1) uniform (wf.protocol_told of)⟩

end Splitter

end Coalition
