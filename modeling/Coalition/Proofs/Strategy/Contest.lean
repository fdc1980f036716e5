import Coalition.Proofs.Game.Positional
import Coalition.Proofs.Strategy.StateGame
import Coalition.Proofs.Strategy.Uniform

-- A team that sees the whole state may choose its move anew in every state.

set_option autoImplicit false

namespace Coalition

namespace System

variable (sys : System) (t : Team)

def contest : Contest Valuation Valuation where
  top := Set.univ
  leads ρ := ⟨fun X => {s | (sys.Reachable s ∧ ∃ τ ∈ sys.trans.members, sys.stateOf τ = s ∧ t.Plays τ ρ) ∧
      ∀ τ ∈ sys.trans.members, sys.stateOf τ = s → t.Plays τ ρ → sys.nextOf τ ∈ X},
    fun _ _ le _ member => ⟨member.1, fun τ trans here plays => le (member.2 τ trans here plays)⟩⟩
  constraints := sys.fairness.map (·.members)
  leads_top _ _ _ _ := trivial

def positional (choice : Valuation → Valuation) : Policy := fun _ s => choice s

variable {sys t} {choice : Valuation → Valuation} {α : Policy}

theorem follows_group {τ : Valuation} : sys.Follows .group t α τ ↔ t.Plays τ (α t (sys.stateOf τ)) := by
  unfold Follows Team.viewers
  simp

-- Fixing a move for every state leaves the plays of a policy.
theorem fixing_plays : (sys.contest t).fixing (α t) = (sys.playGraph .group t α).arenaOver (Set.subset_univ _) := by
  unfold Contest.fixing PlayGraph.arenaOver
  congr 1
  ext X s
  have alive : (sys.Reachable s ∧ ∃ τ ∈ sys.trans.members, sys.stateOf τ = s ∧ t.Plays τ (α t s)) ↔
      s ∈ (sys.playGraph .group t α).alive := by
    refine and_congr_right fun _ => exists_congr fun τ => and_congr_right fun _ => and_congr_right fun here => ?_
    rw [follows_group, here]
  refine and_congr alive ⟨?_, ?_⟩
  · rintro leads u ⟨τ, trans, here, follows, rfl⟩
    exact leads τ trans here (here ▸ follows_group.mp follows)
  · intro leads τ trans here plays
    exact leads _ ⟨τ, trans, here, follows_group.mpr (here.symm ▸ plays), rfl⟩

namespace WellFormed

variable (wf : sys.WellFormed) (of : t.Of sys)

include wf of

theorem covers_contest : Arena.Covers (sys.stateArena t) (sys.contest t).arena sys.stateOf := by
  constructor
  case top => exact fun _ _ => trivial
  case force =>
    intro Z X _
    have lifts {υ : Valuation} (trans : υ ∈ sys.trans.members) : ∃ σ ∈ sys.statesMask.members, sys.stateOf σ = sys.nextOf υ :=
      ⟨sys.nextOf υ, wf.trans_next trans, Frame.state_of_next wf.laid υ⟩
    ext s
    constructor
    · rintro ⟨here, ρ, ⟨played, forced⟩, same⟩
      obtain ⟨_, τ, trans, reached, stateToo, plays⟩ := (wf.mem_protocol of).mp played
      refine ⟨here, ρ, ⟨same ▸ stateToo ▸ reached, τ, trans, stateToo.trans same, plays⟩, fun υ trans here plays => ?_⟩
      exact (System.leads_atop wf.laid fun _ => lifts trans).mp (forced υ trans (here.trans same.symm) plays)
    · rintro ⟨here, ρ, ⟨reached, τ, trans, state, plays⟩, forced⟩
      have played := (wf.mem_protocol of).mpr ⟨wf.trans_inputs trans, τ, trans, state.symm ▸ reached, rfl, .refl t τ⟩
      refine ⟨here, τ, ⟨played, fun υ transToo same playsToo => ?_⟩, state⟩
      exact (System.leads_atop wf.laid fun _ => lifts transToo).mpr (forced υ transToo (same.trans state) (playsToo.trans plays))
  case constraints => exact wf.fairness_states

-- What can be forced is what some choice of an action for each state forces.
theorem mem_state_wins (kind : GoalKind) {left right : Region} (leftReads : left.Reads sys.stateBit) (rightReads : right.Reads sys.stateBit)
    {s : Valuation} (reached : sys.Reachable s) : s ∈ (sys.stateArena t).wins kind left.members right.members ↔
      ∃ α : Policy, (sys.playGraph .group t α).Forces kind left.members right.members s := by
  have covered := (wf.covers_contest of).wins_atop kind left.members right.members
  rw [Frame.preimage_state leftReads, Frame.preimage_state rightReads] at covered
  have here : s ∈ (sys.stateArena t).top := wf.reachable_state_set.inside (wf.mem_of_reachable reached)
  have lower : s ∈ (sys.stateArena t).wins kind left.members right.members ↔
      s ∈ (sys.contest t).arena.wins kind left.members right.members := by
    rw [covered]
    refine (and_iff_right here).trans ?_
    rw [Set.mem_preimage, wf.reachable_state reached]
  rw [lower]
  constructor
  · intro won
    obtain ⟨choice, same⟩ := (sys.contest t).exists_positional left.members right.members kind
    refine ⟨positional choice, PlayGraph.mem_wins_over kind |>.mp ?_⟩
    rw [← fixing_plays]
    exact same ▸ won
  · rintro ⟨α, forces⟩
    have fixed := (PlayGraph.mem_wins_over kind).mpr forces
    rw [← fixing_plays] at fixed
    exact Arena.wins_mono ((sys.contest t).fixing_le (α t)) kind _ _ fixed

end WellFormed

end System

end Coalition
