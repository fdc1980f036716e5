import Coalition.Proofs.Evaluation.Symbolic
import Coalition.Proofs.Strategy.Extend

-- Operands matter only where moves are played, and a policy that leaves out no state is followed by some partial strategy as far as its
-- moves win.

set_option autoImplicit false

namespace Coalition

namespace System

-- A goal with smaller operands, which are the same where the moves of `U` are played; for a next-step goal, where they lead from the
-- states of `source`.
structure Narrows (sys : System) (goal narrow : Goal) (source U : Set Valuation) : Prop where
  kind : narrow.kind = goal.kind
  left : narrow.left.members ⊆ goal.left.members
  right : narrow.right.members ⊆ goal.right.members
  leftKnown : sys.StateSet narrow.left
  rightKnown : sys.StateSet narrow.right
  played : goal.kind ≠ .next → ∀ ρ ∈ U, (ρ ∈ goal.left.members → ρ ∈ narrow.left.members) ∧
    (ρ ∈ goal.right.members → ρ ∈ narrow.right.members)
  led : goal.kind = .next → ∀ τ ∈ sys.trans.members, τ ∈ U → τ ∈ source → sys.nextOf τ ∈ goal.right.members →
    sys.nextOf τ ∈ narrow.right.members

-- Transitions that go on with the moves of `V` as the team plays them belong to `U`.
def Covered (sys : System) (t : Team) (V U : Set Valuation) : Prop :=
  ∀ ρ ∈ V, ∀ τ ∈ sys.trans.members, sys.stateOf τ = sys.stateOf ρ → t.Plays τ ρ → τ ∈ U

variable {sys : System} {t : Team} {protocol : Region} {goal narrow : Goal} {source U V K : Set Valuation} {ρ : Valuation}

theorem Narrows.won_subset (narrows : sys.Narrows goal narrow source U) (V : Set Valuation) :
    sys.won t protocol narrow V ⊆ sys.won t protocol goal V := by
  unfold won
  rw [narrows.kind]
  exact Arena.wins_operands_mono _ _ (Set.inter_subset_left.trans narrows.left) (Set.inter_subset_left.trans narrows.right)

theorem Narrows.won (narrows : sys.Narrows goal narrow source U) (laid : sys.Laid) (goalReads : goal.right.Reads sys.stateBit)
    (le : V ⊆ U) (covered : sys.Covered t V U) (from_ : ∀ τ, sys.stateOf τ = sys.stateOf ρ → τ ∈ source)
    (won : ρ ∈ sys.won t protocol goal V) : ρ ∈ sys.won t protocol narrow V := by
  unfold System.won at won ⊢
  rw [narrows.kind]
  by_cases next : goal.kind = .next
  · rw [next] at won ⊢
    obtain ⟨here, inside, forced⟩ := won
    refine ⟨here, inside, fun τ trans same plays => ?_⟩
    obtain ⟨σ, known | bad, leads⟩ := forced τ trans same plays
    · have reached := narrows.led next τ trans (covered ρ here τ trans same plays) (from_ τ same)
        (leads ▸ (Frame.mem_state_of goalReads).mpr known)
      exact ⟨sys.nextOf τ, .inl reached, Frame.state_of_next laid τ⟩
    · exact ⟨σ, .inr bad, leads⟩
  · refine Arena.wins_operands_mono _ _ ?_ ?_ won
    · exact fun σ member => (narrows.played next σ (le member.2.2)).1 member.1
    · rw [if_neg next]
      exact fun σ member => (narrows.played next σ (le member.2.2)).2 member.1

theorem won_retained (stays : ∀ ρ ∈ U, ρ ∈ K → ∀ τ ∈ sys.trans.members, sys.stateOf τ = sys.stateOf ρ → t.Plays τ ρ → ∀ σ ∈ U,
      sys.stateOf σ = sys.nextOf τ → σ ∈ K) : sys.won t protocol goal (U ∩ K) = K ∩ sys.won t protocol goal U := by
  have retains : ((sys.arena t protocol).on U).Retains K := by
    rintro Z X le ρ ⟨⟨here, inside, forced⟩, kept⟩
    refine ⟨here, inside, fun τ trans same plays => ?_⟩
    obtain ⟨σ, known | there, leads⟩ := forced τ trans same plays
    · exact ⟨σ, .inl known, leads⟩
    · exact ⟨σ, .inr ⟨there, stays ρ here kept τ trans same plays σ (le there).2 leads⟩, leads⟩
  have won := retains.wins_on goal.kind goal.left.members goal.right.members
  rwa [Arena.on_on] at won

-- Of every uniform policy some moves of `M` win by themselves, with all that win from the states of `D` among them.
def Offers (sys : System) (t : Team) (goal : Goal) (D M : Set Valuation) : Prop :=
  ∀ α, sys.Uniform .group t α → ∃ N, N ⊆ sys.following .group t α ∧ N ⊆ M ∧
    (∀ ρ ∈ N, ∀ τ ∈ sys.following .group t α, sys.stateOf τ = sys.stateOf ρ → τ ∈ N) ∧
    N ⊆ sys.won t (sys.protocolOf t) goal N ∧
    ∀ ρ ∈ sys.won t (sys.protocolOf t) goal (sys.following .group t α), ρ ∈ D → ρ ∈ N

namespace WellFormed

variable {α : Policy} {D M : Set Valuation} (wf : sys.WellFormed) (of : t.Of sys)

include wf of

theorem following_covered : sys.Covered t (sys.following .group t α) (sys.following .group t α) := by
  intro ρ follows τ trans same plays
  refine ⟨(wf.mem_protocol of).mpr ⟨wf.trans_inputs trans, τ, trans, ?_, rfl, .refl t τ⟩, (follows_iff same follows.2).mpr plays⟩
  rw [same]
  exact wf.mem_reachable.mp (wf.protocol_inside of follows.1).2

theorem won_following (left : sys.StateSet goal.left) (right : sys.StateSet goal.right) {τ : Valuation}
    (won : ρ ∈ sys.won t (sys.protocolOf t) goal (sys.following .group t α)) (follows : τ ∈ sys.following .group t α)
    (same : sys.stateOf τ = sys.stateOf ρ) : τ ∈ sys.won t (sys.protocolOf t) goal (sys.following .group t α) := by
  unfold System.won at won ⊢
  rw [wf.wins_following of goal.kind left.reads right.reads] at won ⊢
  exact ⟨follows, same ▸ won.2⟩

-- What can be won is won by a policy that leaves out no state, if the team may do the same wherever it sees the same.
theorem exists_complete_policy (alike : sys.SameActions t) {s : Valuation}
    (wins : sys.Winnable .group t (sys.protocolOf t) goal (sys.protocolOf t).members s) :
    ∃ α, sys.Uniform .group t α ∧ (∀ ρ ∈ (sys.protocolOf t).members, ∃ σ ∈ sys.following .group t α, sys.stateOf σ = sys.stateOf ρ) ∧
      sys.Sure .group t (sys.won t (sys.protocolOf t) goal (sys.following .group t α)) s := by
  obtain ⟨U, inside, agreeing, sure⟩ := wins
  obtain ⟨V, le, within, agrees, complete⟩ := wf.exists_complete of (fun ρ played u reached looks =>
    alike (sys.stateOf ρ) u (wf.mem_reachable.mp (wf.protocol_inside of played).2) reached
      ((wf.same_state_of of ρ).symm.trans looks) ρ played rfl) agreeing inside
  obtain ⟨α, uniform, follows⟩ : ∃ α, sys.Uniform .group t α ∧ V ⊆ sys.following .group t α := wf.exists_policy of agrees within
  refine ⟨α, uniform, fun ρ played => ?_, sure.mono (won_mono (le.trans follows))⟩
  obtain ⟨σ, member, same⟩ := complete ρ played
  exact ⟨σ, follows member, same⟩

section

variable (left : sys.StateSet goal.left) (right : sys.StateSet goal.right)

include left right

theorem offers_protocol (D : Set Valuation) : sys.Offers t goal D (sys.protocolOf t).members := by
  intro α _
  refine ⟨sys.won t (sys.protocolOf t) goal (sys.following .group t α), won_subset, won_protocol,
    fun ρ won τ follows same => wf.won_following of left right won follows same, ?_, fun ρ won _ => won⟩
  rw [won_won]

omit left in
theorem offers_filtered {start : Region} (startKnown : sys.StateSet start) {K : Region}
    (reached : ∀ ρ, ρ ∈ K.members ↔ ∃ σ ∈ start.members, Relation.ReflTransGen sys.Step (sys.stateOf σ) (sys.stateOf ρ))
    (reads : K.Reads sys.stateBit)
    (narrows : sys.Narrows goal narrow start.members ((sys.protocolOf t).members ∩ K.members)) :
    sys.Offers t goal start.members (sys.won t (sys.protocolOf t) narrow ((sys.protocolOf t).members ∩ K.members)) := by
  intro α _
  have retained : ∀ goal, sys.won t (sys.protocolOf t) goal (sys.following .group t α ∩ K.members) =
      K.members ∩ sys.won t (sys.protocolOf t) goal (sys.following .group t α) := by
    intro goal
    refine won_retained fun ρ _ kept τ trans same _ σ _ leads => ?_
    obtain ⟨σ₀, start, linked⟩ := (reached ρ).mp kept
    exact (reached σ).mpr ⟨σ₀, start, linked.tail ⟨τ, trans, same, leads.symm⟩⟩
  have fewer : sys.following .group t α ∩ K.members ⊆ (sys.protocolOf t).members ∩ K.members :=
    Set.inter_subset_inter_left _ fun ρ follows => follows.1
  refine ⟨sys.won t (sys.protocolOf t) narrow (sys.following .group t α ∩ K.members), won_subset.trans Set.inter_subset_left,
    won_mono fewer, fun ρ won τ follows same => ?_, ?_, fun ρ won inside => ?_⟩
  · rw [retained] at won ⊢
    exact ⟨(Frame.mem_of_state reads same).mpr won.1, wf.won_following of narrows.leftKnown narrows.rightKnown won.2 follows same⟩
  · conv_lhs => rw [← won_won]
    exact narrows.won_subset _
  · refine narrows.won wf.laid right.reads fewer (fun σ here τ trans same plays => ?_) (fun τ same => ?_) ?_
    · exact ⟨(wf.following_covered of σ here.1 τ trans same plays).1, (Frame.mem_of_state reads same).mpr here.2⟩
    · exact (Frame.mem_of_state startKnown.reads same).mpr inside
    · rw [retained]
      exact ⟨(reached ρ).mpr ⟨ρ, inside, .refl⟩, won⟩

end

-- A strategy that follows the moves of a policy, to the end and with all of them that are offered where it starts, wins wherever they
-- win.
theorem won_tracked {sp : Splitter} (same : sp.sys = sys) (team : sp.team = t) {moves U closed : Region}
    (movesReads : moves.Reads sys.moveBit) (uReads : U.Reads sys.moveBit) (closedReads : closed.Reads sys.stateBit)
    (rightReads : goal.right.Reads sys.stateBit)
    {N : Set Valuation} (follows : N ⊆ sys.following .group t α) (offered : N ⊆ moves.members)
    (determined : ∀ ρ ∈ N, ∀ τ ∈ sys.following .group t α, sys.stateOf τ = sys.stateOf ρ → τ ∈ N)
    (wins : N ⊆ sys.won t (sys.protocolOf t) goal N) (starts : ∀ ρ ∈ N, ρ ∈ closed.members → ρ ∈ U.members)
    (tracks : sp.Tracks closed.members (sys.following .group t α) U.members)
    (stops : ∀ σ ∈ sys.following .group t α, σ ∉ closed.members → σ ∉ (sp.freshStates U moves).members)
    (narrows : sys.Narrows goal narrow closed.members U.members) (here : ρ ∈ N) (inside : ρ ∈ closed.members) :
    ρ ∈ sys.won t (sys.protocolOf t) narrow U.members := by
  subst same team
  -- all offered moves in a state belong to the strategy if one does
  have settled : ∀ σ ∈ N, σ ∈ U.members → ∀ τ ∈ N, sp.sys.stateOf τ = sp.sys.stateOf σ → τ ∈ U.members := by
    intro σ offers member τ offersToo state
    by_cases near : σ ∈ closed.members
    · exact starts τ offersToo ((Frame.mem_of_state closedReads state).mpr near)
    · exact tracks.settled σ member near τ (follows offersToo) state
  have covered : sp.sys.Covered sp.team (N ∩ U.members) (N ∩ U.members) := by
    rintro σ ⟨offers, member⟩ τ trans state plays
    have goesOn := determined σ offers τ (wf.following_covered of σ (follows offers) τ trans state plays) state
    exact ⟨goesOn, settled σ offers member τ goesOn state⟩
  have retained : sp.sys.won sp.team (sp.sys.protocolOf sp.team) goal (N ∩ U.members) =
      U.members ∩ sp.sys.won sp.team (sp.sys.protocolOf sp.team) goal N := by
    refine won_retained fun σ offers member τ trans state plays μ next leads => ?_
    obtain ⟨goesOn, played⟩ := covered σ ⟨offers, member⟩ τ trans state plays
    by_cases near : μ ∈ closed.members
    · exact starts μ next near
    · -- nothing new is reached outside of `closed`
      have known := stops μ (follows next) near
      rw [Splitter.mem_fresh_states wf movesReads uReads, not_and_not_right] at known
      obtain ⟨π, member, place⟩ := known ⟨τ, trans, offered goesOn, played, leads.symm⟩
      exact tracks.settled π member (fun near' => near ((Frame.mem_of_state closedReads place).mp near')) μ (follows next) place.symm
  have itself : ρ ∈ U.members := starts ρ here inside
  refine won_mono Set.inter_subset_right (narrows.won wf.laid rightReads Set.inter_subset_right
    (fun σ member τ trans state plays => (covered σ member τ trans state plays).2)
    (fun τ state => (Frame.mem_of_state closedReads state).mpr inside) ?_)
  rw [retained]
  exact ⟨itself, wins here⟩

end WellFormed

end System

end Coalition
