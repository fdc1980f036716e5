import Coalition.Options
import Coalition.Proofs.Game.Play
import Coalition.Proofs.Strategy.MoveGame

-- The arena of the moves that follow a policy lies over the graph of its plays, so winning there is winning against every play.

set_option autoImplicit false

namespace Coalition

def Team.viewers (semantics : Semantics) (t : Team) : List Team :=
  match semantics with
  | .group => [t]
  | .individual => t.singles

abbrev Policy := Team → Valuation → Valuation

-- Some teams play the same wherever they see the same.
def Agreeing (viewers : List Team) (U : Set Valuation) : Prop :=
  ∀ w ∈ viewers, ∀ ρ ∈ U, ∀ σ ∈ U, w.Same ρ σ → w.Plays ρ σ

namespace System

variable {sys : System} {semantics : Semantics} {t : Team} {α : Policy}

-- A viewer makes one choice for all reachable states that look the same to it.
def Uniform (sys : System) (semantics : Semantics) (t : Team) (α : Policy) : Prop :=
  ∀ w ∈ t.viewers semantics, ∀ s u, sys.Reachable s → sys.Reachable u → w.Same s u → w.Plays (α w s) (α w u)

def Follows (sys : System) (semantics : Semantics) (t : Team) (α : Policy) (ρ : Valuation) : Prop :=
  ∀ w ∈ t.viewers semantics, w.Plays ρ (α w (sys.stateOf ρ))

-- The plays a policy allows. Something can be played in a reachable state with a transition that follows it.
def playGraph (sys : System) (semantics : Semantics) (t : Team) (α : Policy) : PlayGraph Valuation where
  alive := {s | sys.Reachable s ∧ ∃ τ ∈ sys.trans.members, sys.stateOf τ = s ∧ sys.Follows semantics t α τ}
  step s u := ∃ τ ∈ sys.trans.members, sys.stateOf τ = s ∧ sys.Follows semantics t α τ ∧ sys.nextOf τ = u
  fairness := sys.fairness.map (·.members)
  continues := fun _ ⟨_, τ, known, here, follows⟩ => ⟨sys.nextOf τ, τ, known, here, follows, rfl⟩

def following (sys : System) (semantics : Semantics) (t : Team) (α : Policy) : Set Valuation :=
  {ρ | ρ ∈ (sys.protocolOf t).members ∧ sys.Follows semantics t α ρ}

-- Some move wins in the state and, as far as the viewers can tell, in it only such states are possible.
def Sure (sys : System) (semantics : Semantics) (t : Team) (W : Set Valuation) (s : Valuation) : Prop :=
  (∃ ρ ∈ W, sys.stateOf ρ = s) ∧
    ∀ w ∈ t.viewers semantics, ∀ u, sys.Reachable u → w.Same s u → ∃ ρ ∈ W, sys.stateOf ρ = u

end System

namespace Team

variable {sys : System} {semantics : Semantics} {t w : Team}

theorem viewer_of (of : t.Of sys) (viewer : w ∈ t.viewers semantics) : w.Of sys := by
  cases semantics with
  | group => exact List.mem_singleton.mp viewer ▸ of
  | individual => exact single_of of viewer

theorem viewer_acts (viewer : w ∈ t.viewers semantics) {b : Nat} (acts : b ∈ w.actionBits) : b ∈ t.actionBits := by
  cases semantics with
  | group => exact List.mem_singleton.mp viewer ▸ acts
  | individual =>
      obtain ⟨a, member, rfl⟩ := List.mem_map.mp viewer
      obtain ⟨v, owned, bit⟩ := List.mem_flatMap.mp acts
      obtain ⟨c, only, acting⟩ := List.mem_flatMap.mp owned
      have same : c = a := List.mem_singleton.mp only
      exact List.mem_flatMap.mpr ⟨v, List.mem_flatMap.mpr ⟨a, member, same ▸ acting⟩, bit⟩

theorem acts_viewer (semantics : Semantics) {b : Nat} (acts : b ∈ t.actionBits) : ∃ w ∈ t.viewers semantics, b ∈ w.actionBits := by
  cases semantics with
  | group => exact ⟨t, List.mem_singleton.mpr rfl, acts⟩
  | individual =>
      obtain ⟨v, owned, bit⟩ := List.mem_flatMap.mp acts
      obtain ⟨a, member, acting⟩ := List.mem_flatMap.mp owned
      refine ⟨⟨[a]⟩, List.mem_map_of_mem member, List.mem_flatMap.mpr ⟨v, ?_, bit⟩⟩
      exact List.mem_flatMap.mpr ⟨a, List.mem_singleton.mpr rfl, acting⟩

theorem plays_iff (semantics : Semantics) {ρ σ : Valuation} : t.Plays ρ σ ↔ ∀ w ∈ t.viewers semantics, w.Plays ρ σ := by
  constructor
  · exact fun plays w viewer b acts => plays b (viewer_acts viewer acts)
  · intro each b acts
    obtain ⟨w, viewer, here⟩ := acts_viewer semantics acts
    exact each w viewer b here

end Team

theorem Agreeing.mono {viewers : List Team} {U V : Set Valuation} (agreeing : Agreeing viewers V) (le : U ⊆ V) :
    Agreeing viewers U :=
  fun w viewer ρ here σ there => agreeing w viewer ρ (le here) σ (le there)

namespace System

variable {sys : System} {semantics : Semantics} {t : Team} {α : Policy} {U W V : Set Valuation}

theorem Sure.mono {s : Valuation} (sure : sys.Sure semantics t W s) (le : W ⊆ V) : sys.Sure semantics t V s :=
  ⟨sure.1.imp fun _ here => ⟨le here.1, here.2⟩, fun w viewer u reached same =>
    (sure.2 w viewer u reached same).imp fun _ here => ⟨le here.1, here.2⟩⟩

theorem follows_iff {ρ τ : Valuation} (same : sys.stateOf τ = sys.stateOf ρ) (follows : sys.Follows semantics t α ρ) :
    sys.Follows semantics t α τ ↔ t.Plays τ ρ := by
  rw [Team.plays_iff semantics]
  refine forall₂_congr fun w viewer => ?_
  rw [same]
  exact ⟨fun plays => plays.trans (follows w viewer).symm, fun plays => plays.trans (follows w viewer)⟩

namespace WellFormed

variable (wf : sys.WellFormed) (of : t.Of sys)

include wf of

theorem same_state_of (ρ : Valuation) : t.Same ρ (sys.stateOf ρ) :=
  fun _ member _ seen _ bit => (Valuation.on_apply (wf.observed_bit of member seen bit)).symm

theorem same_states {ρ σ : Valuation} : t.Same (sys.stateOf ρ) (sys.stateOf σ) ↔ t.Same ρ σ := by
  constructor
  · exact fun same => ((wf.same_state_of of ρ).trans same).trans (wf.same_state_of of σ).symm
  · exact fun same => ((wf.same_state_of of ρ).symm.trans same).trans (wf.same_state_of of σ)

theorem sure_of_alike {ρ : Valuation} (sure : sys.Sure .group t U (sys.stateOf ρ)) (alike : ∀ σ ∈ U, t.Same ρ σ → σ ∈ V) :
    sys.Sure .group t V (sys.stateOf ρ) := by
  obtain ⟨⟨σ, here, state⟩, others⟩ := sure
  refine ⟨⟨σ, alike σ here ((wf.same_states of).mp (state ▸ .refl t _)), state⟩, fun w viewer u reached same => ?_⟩
  obtain ⟨τ, there, rfl⟩ := others w viewer u reached same
  exact ⟨τ, alike τ there ((wf.same_states of).mp (List.mem_singleton.mp viewer ▸ same)), rfl⟩

theorem following_agrees (uniform : sys.Uniform semantics t α) : Agreeing (t.viewers semantics) (sys.following semantics t α) := by
  intro w viewer ρ here σ there same
  have reachedHere := wf.mem_reachable.mp (wf.protocol_inside of here.1).2
  have reachedThere := wf.mem_reachable.mp (wf.protocol_inside of there.1).2
  have alike := (wf.same_states (Team.viewer_of of viewer)).mpr same
  exact ((here.2 w viewer).trans (uniform w viewer _ _ reachedHere reachedThere alike)).trans (there.2 w viewer).symm

-- Moves that agree follow one uniform policy.
theorem exists_policy (agreeing : Agreeing (t.viewers semantics) U) (inside : U ⊆ (sys.protocolOf t).members) :
    ∃ α, sys.Uniform semantics t α ∧ U ⊆ sys.following semantics t α := by
  classical
  let α : Policy := fun w s => if seen : ∃ ρ ∈ U, w.Same ρ s then seen.choose else fun _ => false
  have chosen : ∀ w s, (seen : ∃ ρ ∈ U, w.Same ρ s) → α w s ∈ U ∧ w.Same (α w s) s := by
    intro w s seen
    simp only [α, dif_pos seen]
    exact seen.choose_spec
  refine ⟨α, fun w viewer s u reachedS reachedU same => ?_, fun ρ member => ⟨inside member, fun w viewer => ?_⟩⟩
  · by_cases seen : ∃ ρ ∈ U, w.Same ρ s
    · obtain ⟨hereS, likeS⟩ := chosen w s seen
      obtain ⟨hereU, likeU⟩ := chosen w u (seen.imp fun ρ known => ⟨known.1, known.2.trans same⟩)
      exact agreeing w viewer _ hereS _ hereU ((likeS.trans same).trans likeU.symm)
    · have unseen : ¬ ∃ ρ ∈ U, w.Same ρ u := fun seenU => seen (seenU.imp fun ρ known => ⟨known.1, known.2.trans same.symm⟩)
      simp only [α, dif_neg seen, dif_neg unseen]
      exact Team.Plays.refl w _
  · have like := wf.same_state_of (Team.viewer_of of viewer) ρ
    obtain ⟨here, same⟩ := chosen w (sys.stateOf ρ) ⟨ρ, member, like⟩
    exact agreeing w viewer ρ member _ here (like.trans same.symm)

-- Where the team may do the same in states that look the same to it, moves that agree belong to moves that agree and leave out no state
-- where anything is played.
theorem exists_complete (alike : ∀ ρ ∈ (sys.protocolOf t).members, ∀ u, sys.Reachable u → t.Same ρ u →
      ∃ σ ∈ (sys.protocolOf t).members, sys.stateOf σ = u ∧ t.Plays σ ρ)
    (agreeing : Agreeing [t] U) (inside : U ⊆ (sys.protocolOf t).members) :
    ∃ V, U ⊆ V ∧ V ⊆ (sys.protocolOf t).members ∧ Agreeing [t] V ∧
      ∀ ρ ∈ (sys.protocolOf t).members, ∃ σ ∈ V, sys.stateOf σ = sys.stateOf ρ := by
  classical
  -- each class of states is led by one move, of `U` if it can be
  let some : Set Valuation → Valuation := fun A => if known : A.Nonempty then known.some else fun _ => false
  let leader : Valuation → Valuation := fun s =>
    if {ρ | ρ ∈ U ∧ t.Same ρ s}.Nonempty then some {ρ | ρ ∈ U ∧ t.Same ρ s} else some {ρ | ρ ∈ (sys.protocolOf t).members ∧ t.Same ρ s}
  have member : ∀ A : Set Valuation, A.Nonempty → some A ∈ A := fun A known => by
    dsimp only [some]
    rw [dif_pos known]
    exact known.some_mem
  have shared : ∀ s u, t.Same s u → leader s = leader u := by
    intro s u same
    have classes : ∀ A : Set Valuation, {ρ | ρ ∈ A ∧ t.Same ρ s} = {ρ | ρ ∈ A ∧ t.Same ρ u} := fun A =>
      Set.ext fun ρ => and_congr_right fun _ => ⟨fun looks => looks.trans same, fun looks => looks.trans same.symm⟩
    dsimp only [leader]
    rw [classes U, classes (sys.protocolOf t).members]
  have leads : ∀ ρ ∈ (sys.protocolOf t).members, leader ρ ∈ (sys.protocolOf t).members ∧ t.Same (leader ρ) ρ := by
    intro ρ played
    by_cases known : {σ | σ ∈ U ∧ t.Same σ ρ}.Nonempty
    · simp only [leader, if_pos known]
      exact ⟨inside (member _ known).1, (member _ known).2⟩
    · simp only [leader, if_neg known]
      exact member {σ | σ ∈ (sys.protocolOf t).members ∧ t.Same σ ρ} ⟨ρ, played, .refl t ρ⟩
  refine ⟨{ρ | ρ ∈ (sys.protocolOf t).members ∧ t.Plays ρ (leader ρ)}, fun ρ here => ⟨inside here, ?_⟩, fun ρ here => here.1, ?_, ?_⟩
  · have known : {σ | σ ∈ U ∧ t.Same σ ρ}.Nonempty := ⟨ρ, here, .refl t ρ⟩
    simp only [leader, if_pos known]
    have chosen := member _ known
    exact agreeing t (List.mem_singleton.mpr rfl) ρ here _ chosen.1 chosen.2.symm
  · intro w viewer ρ here σ there same
    obtain rfl := List.mem_singleton.mp viewer
    exact here.2.trans ((shared ρ σ same).symm ▸ there.2.symm)
  · intro ρ played
    obtain ⟨led, looks⟩ := leads ρ played
    have reached := wf.mem_reachable.mp (wf.protocol_inside of played).2
    obtain ⟨σ, playedToo, state, plays⟩ := alike _ led _ reached (looks.trans (wf.same_state_of of ρ))
    have same : t.Same σ ρ := (wf.same_states of).mp (state ▸ .refl t _)
    exact ⟨σ, ⟨playedToo, shared σ ρ same ▸ plays⟩, state⟩

theorem mem_alive {s : Valuation} : s ∈ (sys.playGraph semantics t α).alive ↔ ∃ ρ ∈ sys.following semantics t α, sys.stateOf ρ = s := by
  constructor
  · rintro ⟨reached, τ, trans, rfl, follows⟩
    exact ⟨τ, ⟨(wf.mem_protocol of).mpr ⟨wf.trans_inputs trans, τ, trans, reached, rfl, Team.Plays.refl t τ⟩, follows⟩, rfl⟩
  · rintro ⟨ρ, ⟨inside, follows⟩, rfl⟩
    obtain ⟨_, τ, trans, reached, same, plays⟩ := (wf.mem_protocol of).mp inside
    exact ⟨same ▸ reached, τ, trans, same, (follows_iff same follows).mpr plays⟩

theorem covers_plays (semantics : Semantics) (α : Policy) :
    Arena.Covers ((sys.arena t (sys.protocolOf t)).on (sys.following semantics t α)) (sys.playGraph semantics t α).arena sys.stateOf := by
  constructor
  case top => exact fun ρ member => (wf.mem_alive of).mpr ⟨ρ, member.2, rfl⟩
  case force =>
    intro Z X le
    have lifts {u : Valuation} (there : u ∈ X) :
        ∃ σ ∈ (sys.protocolOf t).members ∩ sys.following semantics t α, sys.stateOf σ = u := by
      obtain ⟨σ, member, same⟩ := (wf.mem_alive of).mp (le there)
      exact ⟨σ, ⟨member.1, member⟩, same⟩
    ext ρ
    constructor
    · rintro ⟨follows, inside, forced⟩
      refine ⟨⟨inside, follows⟩, (wf.mem_alive of).mpr ⟨ρ, follows, rfl⟩, ?_⟩
      rintro u ⟨τ, trans, same, followsToo, rfl⟩
      exact (System.leads_atop wf.laid lifts).mp (forced τ trans same ((follows_iff same follows.2).mp followsToo))
    · rintro ⟨⟨inside, follows⟩, _, forced⟩
      refine ⟨follows, inside, fun τ trans same plays => (System.leads_atop wf.laid lifts).mpr ?_⟩
      exact forced (sys.nextOf τ) ⟨τ, trans, same, (follows_iff same follows.2).mpr plays, rfl⟩
  case constraints => exact wf.fairness_states

-- The moves that win when a policy is followed are those from whose states its plays achieve the goal.
theorem wins_following (kind : GoalKind) {left right : Region} (leftReads : left.Reads sys.stateBit)
    (rightReads : right.Reads sys.stateBit) :
    ((sys.arena t (sys.protocolOf t)).on (sys.following semantics t α)).wins kind left.members right.members =
      {ρ | ρ ∈ sys.following semantics t α ∧
        (sys.playGraph semantics t α).Achieves kind left.members right.members (sys.stateOf ρ)} := by
  have won := (wf.covers_plays of semantics α).wins_atop kind left.members right.members
  rw [Frame.preimage_state leftReads, Frame.preimage_state rightReads] at won
  rw [won]
  ext ρ
  constructor
  · rintro ⟨⟨_, follows⟩, wins⟩
    exact ⟨follows, PlayGraph.mem_wins kind |>.mp wins⟩
  · rintro ⟨follows, achieves⟩
    exact ⟨⟨follows.1, follows⟩, (PlayGraph.mem_wins kind).mpr achieves⟩

end WellFormed

end System

end Coalition
