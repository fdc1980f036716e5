import Coalition.Proofs.Strategy.Split

-- Every extension agrees with itself and plays on until it leads nowhere new; moves that agree and leave out no state are followed by one
-- of the extensions wherever the partial strategy had not decided yet.

set_option autoImplicit false

namespace Coalition

namespace Splitter

-- Moves that agree and leave out no state, and states whose classes lie among them.
structure Guides (sp : Splitter) (protocol closed V : Set Valuation) : Prop where
  inside : V ⊆ protocol
  agreeing : Agreeing (sp.team.viewers sp.semantics) V
  complete : ∀ ρ ∈ protocol, ∃ σ ∈ V, sp.sys.stateOf σ = sp.sys.stateOf ρ
  spread : ∀ w ∈ sp.team.viewers sp.semantics, ∀ ρ ∈ closed, ∀ σ ∈ protocol, w.Same ρ σ → σ ∈ closed
  states : ∀ ρ σ, sp.sys.stateOf ρ = sp.sys.stateOf σ → ρ ∈ closed → σ ∈ closed

-- Outside `closed` the strategy agrees with the moves of `V`, and has all those of its own states.
structure Tracks (sp : Splitter) (closed V U : Set Valuation) : Prop where
  agreeing : Agreeing (sp.team.viewers sp.semantics) (U ∪ (V \ closed))
  settled : ∀ ρ ∈ U, ρ ∉ closed → ∀ σ ∈ V, sp.sys.stateOf σ = sp.sys.stateOf ρ → σ ∈ U

structure Partial (sp : Splitter) (protocol s : Region) : Prop where
  inside : s.members ⊆ protocol.members
  reads : s.Reads sp.sys.moveBit
  agreeing : Agreeing (sp.team.viewers sp.semantics) s.members

structure Extensions (sp : Splitter) (protocol start : Region) (e : Enumeration Region) : Prop where
  ends : e.error? = none
  some : ∃ s, s ∈ e.items
  above : ∀ s ∈ e.items, start.members ⊆ s.members
  each : ∀ s ∈ e.items, sp.Partial protocol s

-- One of the listed strategies follows the moves of `V` wherever it leads.
def Follows (sp : Splitter) (moves : Region) (closed V : Set Valuation) (e : Enumeration Region) : Prop :=
  ∃ s ∈ e.items, sp.Tracks closed V s.members ∧ ∀ σ ∈ V, σ ∉ closed → σ ∉ (sp.freshStates s moves).members

variable {sp : Splitter} {protocol moves strategy part : Region} {closed V U : Set Valuation}

theorem Guides.same_state (_ : sp.Guides protocol.members closed V) (wf : sp.sys.WellFormed) (of : sp.team.Of sp.sys)
    {w : Team} (viewer : w ∈ sp.team.viewers sp.semantics) {ρ σ : Valuation} (state : sp.sys.stateOf ρ = sp.sys.stateOf σ) :
    w.Same ρ σ := by
  have known := Team.viewer_of of viewer
  exact (wf.same_states known).mp (state ▸ .refl w _)

theorem extensions_single (start : sp.Partial protocol strategy) : sp.Extensions protocol strategy (.single strategy) := by
  refine ⟨rfl, ⟨strategy, List.mem_singleton_self strategy⟩, fun s listed => ?_, fun s listed => ?_⟩
  · exact List.mem_singleton.mp listed ▸ Set.Subset.refl _
  · exact List.mem_singleton.mp listed ▸ start

section

variable (wf : sp.sys.WellFormed) (of : sp.team.Of sp.sys) (played : sp.sys.PlayedSet protocol)
  (movesReads : moves.Reads sp.sys.moveBit)

include wf

section

include movesReads

theorem mem_fresh_states (reads : strategy.Reads sp.sys.moveBit) {ρ : Valuation} :
    ρ ∈ (sp.freshStates strategy moves).members ↔ (∃ τ ∈ sp.sys.trans.members, τ ∈ moves.members ∧ τ ∈ strategy.members ∧
      sp.sys.nextOf τ = sp.sys.stateOf ρ) ∧ ¬ ∃ σ ∈ strategy.members, sp.sys.stateOf σ = sp.sys.stateOf ρ := by
  have ledReads := (wf.post_sub_state_set reads movesReads).reads
  have led := (wf.post_sub_state_set reads movesReads).diff (Frame.reads_hide_inputs reads)
  unfold freshStates
  rw [led.states_of wf.laid, Region.members_diff, Set.mem_sdiff, wf.mem_post_sub reads movesReads, Frame.mem_hide_inputs wf.laid reads]
  rfl

theorem fresh_states_reads (reads : strategy.Reads sp.sys.moveBit) : (sp.freshStates strategy moves).Reads sp.sys.stateBit := by
  have led := (wf.post_sub_state_set reads movesReads).diff (Frame.reads_hide_inputs reads)
  unfold freshStates
  rw [led.states_of wf.laid]
  exact led.reads

end

include of

-- A part that agrees with the strategy and takes up the moves of a guide in fresh states goes on following it.
theorem Tracks.extend (guides : sp.Guides protocol.members closed V) (tracks : sp.Tracks closed V strategy.members)
    (inside : part.members ⊆ protocol.members) (fresh : ∀ ρ ∈ part.members, ∀ σ ∈ V, σ ∉ closed →
      sp.sys.stateOf σ = sp.sys.stateOf ρ → σ ∈ part.members)
    (agreeing : Agreeing (sp.team.viewers sp.semantics) (part.members ∪ strategy.members)) :
    sp.Tracks closed V (strategy.union part).members := by
  rw [Region.members_union]
  have pair : ∀ w ∈ sp.team.viewers sp.semantics, ∀ ρ ∈ part.members, ∀ σ ∈ V \ closed, w.Same ρ σ → w.Plays ρ σ := by
    intro w viewer ρ here σ there same
    have outside : ρ ∉ closed := fun known => there.2 (guides.spread w viewer ρ known σ (guides.inside there.1) same)
    obtain ⟨μ, guided, state⟩ := guides.complete ρ (inside here)
    have taken := fresh ρ here μ guided (fun known => outside (guides.states μ ρ state known)) state
    have looks := guides.same_state wf of viewer state
    exact (agreeing w viewer ρ (.inl here) μ (.inl taken) looks.symm).trans
      (guides.agreeing w viewer μ guided σ there.1 (looks.trans same))
  constructor
  · rintro w viewer ρ ((here | here) | here) σ ((there | there) | there) same
    · exact tracks.agreeing w viewer ρ (.inl here) σ (.inl there) same
    · exact agreeing w viewer ρ (.inr here) σ (.inl there) same
    · exact tracks.agreeing w viewer ρ (.inl here) σ (.inr there) same
    · exact agreeing w viewer ρ (.inl here) σ (.inr there) same
    · exact agreeing w viewer ρ (.inl here) σ (.inl there) same
    · exact pair w viewer ρ here σ there same
    · exact tracks.agreeing w viewer ρ (.inr here) σ (.inl there) same
    · exact (pair w viewer σ there ρ here same.symm).symm
    · exact tracks.agreeing w viewer ρ (.inr here) σ (.inr there) same
  · rintro ρ (here | here) outside σ guided state
    · exact .inl (tracks.settled ρ here outside σ guided state)
    · exact .inr (fresh ρ here σ guided (fun known => outside (guides.states σ ρ state known)) state)

include played movesReads

theorem extend_step (fuel : Nat) (start : sp.Partial protocol strategy) :
    let added := (sp.freshStates strategy moves).inter protocol
    (added.members = ∅ ∧ sp.extendFrom protocol moves (fuel + 1) strategy = .single strategy) ∨
      ((sp.extendFrom protocol moves (fuel + 1) strategy = (sp.split added strategy).bind fun s =>
          if strategy.union s = strategy then .single strategy else sp.extendFrom protocol moves fuel (strategy.union s)) ∧
        Parts sp.sys (sp.team.viewers sp.semantics) strategy.members added.members (sp.split added strategy) ∧
        ∀ s ∈ (sp.split added strategy).items, sp.Partial protocol (strategy.union s) ∧
          (strategy.union s ≠ strategy → sp.sys.moveCount strategy < sp.sys.moveCount (strategy.union s))) := by
  intro added
  have addedReads : added.Reads sp.sys.moveBit :=
    ((fresh_states_reads wf movesReads start.reads).mono sp.sys.state_subset_move).inter played.reads
  have addedInside : added.members ⊆ protocol.members := by
    rw [Region.members_inter]
    exact Set.inter_subset_right
  cases none : added.isEmpty with
  | true =>
      refine .inl ⟨Region.is_empty_members.mp none, ?_⟩
      rw [extendFrom, if_pos none]
  | false =>
      have parts := split_spec wf (played.sub start.inside start.reads) of start.agreeing (played.sub addedInside addedReads)
      refine .inr ⟨?_, parts, fun s listed => ?_⟩
      · rw [extendFrom, if_neg (by rw [show _ = _ from none]; exact Bool.false_ne_true)]
      · have members := Region.members_union strategy s
        have reads := start.reads.union (parts.reads s listed)
        refine ⟨⟨?_, reads, ?_⟩, fun different => ?_⟩
        · rw [members]
          exact Set.union_subset start.inside ((parts.inside s listed).trans addedInside)
        · rw [members, Set.union_comm]
          exact parts.agreeing s listed
        · exact Region.weight_strict (System.reads_moves reads) (members ▸ Set.subset_union_left) different.symm
            (System.reads_moves start.reads)

theorem extend_from_spec (fuel : Nat) (start : sp.Partial protocol strategy)
    (enough : sp.bound ≤ sp.sys.moveCount strategy + fuel) :
    sp.Extensions protocol strategy (sp.extendFrom protocol moves fuel strategy) := by
  induction fuel generalizing strategy with
  | zero => exact absurd (System.move_count_bound sp.semantics sp.team strategy) (Nat.not_lt.mpr enough)
  | succ fuel ih =>
      obtain ⟨_, same⟩ | ⟨same, parts, next⟩ := extend_step wf of played movesReads fuel start
      · rw [same]
        exact extensions_single start
      · have each : ∀ s ∈ (sp.split ((sp.freshStates strategy moves).inter protocol) strategy).items,
            sp.Extensions protocol strategy (if strategy.union s = strategy then .single strategy
              else sp.extendFrom protocol moves fuel (strategy.union s)) := by
          intro s listed
          obtain ⟨partial_, more⟩ := next s listed
          split
          · exact extensions_single start
          · rename_i different
            have less := more different
            obtain ⟨ends, some, above, each⟩ := ih partial_ (by omega)
            refine ⟨ends, some, fun u member => ?_, each⟩
            exact (Region.members_union strategy s ▸ Set.subset_union_left).trans (above u member)
        obtain ⟨ends, items⟩ := Enumeration.bind_spec parts.ends fun s listed => (each s listed).ends
        rw [same]
        refine ⟨ends, ?_, ?_, ?_⟩ <;> rw [items]
        · obtain ⟨s, listed⟩ := parts.some start.agreeing
          obtain ⟨u, member⟩ := (each s listed).some
          exact ⟨u, List.mem_flatMap.mpr ⟨s, listed, member⟩⟩
        all_goals
          intro u listed
          obtain ⟨s, known, member⟩ := List.mem_flatMap.mp listed
        · exact (each s known).above u member
        · exact (each s known).each u member

theorem extend_from_follows (guides : sp.Guides protocol.members closed V) (fuel : Nat) (start : sp.Partial protocol strategy)
    (tracks : sp.Tracks closed V strategy.members) (enough : sp.bound ≤ sp.sys.moveCount strategy + fuel) :
    sp.Follows moves closed V (sp.extendFrom protocol moves fuel strategy) := by
  induction fuel generalizing strategy with
  | zero => exact absurd (System.move_count_bound sp.semantics sp.team strategy) (Nat.not_lt.mpr enough)
  | succ fuel ih =>
      have inAdded : ∀ σ ∈ V, σ ∈ (sp.freshStates strategy moves).members →
          σ ∈ ((sp.freshStates strategy moves).inter protocol).members := by
        intro σ guided fresh
        rw [Region.members_inter]
        exact ⟨fresh, guides.inside guided⟩
      obtain ⟨none, same⟩ | ⟨same, parts, next⟩ := extend_step wf of played movesReads fuel start
      · rw [same]
        refine ⟨strategy, List.mem_singleton.mpr rfl, tracks, fun σ guided _ fresh => ?_⟩
        exact Set.notMem_empty σ (none ▸ inAdded σ guided fresh)
      · -- the part that takes up the moves of the guide in fresh states
        obtain ⟨s, listed, taken⟩ := parts.complete
          ({σ | σ ∈ V ∧ σ ∉ closed} ∩ (sp.freshStates strategy moves).members) (fun σ member => inAdded σ member.1.1 member.2)
          (by
            refine tracks.agreeing.mono ?_
            rw [Set.union_comm]
            exact Set.union_subset_union_right _ fun σ member => member.1)
        obtain ⟨partial_, more⟩ := next s listed
        have freshReads := fresh_states_reads wf movesReads start.reads
        have tracksToo := tracks.extend wf of guides ((parts.inside s listed).trans (by
            rw [Region.members_inter]
            exact Set.inter_subset_right)) (fun ρ here σ guided outside state => taken ⟨⟨guided, outside⟩, by
              have inside := parts.inside s listed here
              rw [Region.members_inter] at inside
              exact (Frame.mem_of_state freshReads state).mpr inside.1⟩) (parts.agreeing s listed)
        -- with this part nothing new may come up, or the extension goes on and has more moves
        have found : sp.Follows moves closed V (if strategy.union s = strategy then .single strategy
            else sp.extendFrom protocol moves fuel (strategy.union s)) := by
          split
          · rename_i nothing
            refine ⟨strategy, List.mem_singleton.mpr rfl, tracks, fun σ guided outside fresh => ?_⟩
            have inside : σ ∈ strategy.members := nothing ▸ (Region.members_union strategy s ▸ .inr (taken ⟨⟨guided, outside⟩, fresh⟩))
            exact ((mem_fresh_states wf movesReads start.reads).mp fresh).2 ⟨σ, inside, rfl⟩
          · rename_i different
            have less := more different
            exact ih partial_ tracksToo (by omega)
        have ends : ∀ s ∈ (sp.split ((sp.freshStates strategy moves).inter protocol) strategy).items,
            (if strategy.union s = strategy then .single strategy
              else sp.extendFrom protocol moves fuel (strategy.union s)).error? = none := by
          intro s listed
          split
          · rfl
          · rename_i different
            have less := (next s listed).2 different
            exact (extend_from_spec wf of played movesReads fuel (next s listed).1 (by omega)).ends
        obtain ⟨u, member, follows⟩ := found
        obtain ⟨_, items⟩ := Enumeration.bind_spec parts.ends ends
        refine ⟨u, ?_, follows⟩
        rw [same, items]
        exact List.mem_flatMap.mpr ⟨s, listed, member⟩

theorem extend_spec (start : sp.Partial protocol strategy) : sp.Extensions protocol strategy (sp.extend protocol strategy moves) :=
  extend_from_spec wf of played movesReads sp.bound start (Nat.le_add_left _ _)

theorem extend_follows (guides : sp.Guides protocol.members closed V) (start : sp.Partial protocol strategy)
    (tracks : sp.Tracks closed V strategy.members) : sp.Follows moves closed V (sp.extend protocol strategy moves) :=
  extend_from_follows wf of played movesReads guides sp.bound start tracks (Nat.le_add_left _ _)

end

end Splitter

end Coalition
