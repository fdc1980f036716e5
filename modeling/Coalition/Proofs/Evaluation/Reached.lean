import Coalition.Proofs.Evaluation.Local
import Coalition.Proofs.Evaluation.Search

-- A team whose strategies are listed has brought about a goal known to be reached if it has one action that it may take in all the states
-- it cannot tell apart.

set_option autoImplicit false

namespace Coalition

theorem Arena.reached_wins {α : Type} {a : Arena α} {left right : Set α} {m : α} (free : a.constraints = []) (here : m ∈ right)
    (top : m ∈ a.top) : m ∈ a.wins .strong left right := by
  show m ∈ a.strong _ _
  rw [a.strong_eq_free (by simp [free])]
  exact .inl ⟨here, top⟩

namespace System

-- The team knows in the state that it is in the set: so are all reachable states that look the same.
def Knows (sys : System) (t : Team) (X : Set Valuation) (s : Valuation) : Prop := ∀ u, sys.Reachable u → t.Same s u → u ∈ X

-- The team has one action that is possible in all reachable states that look like the state.
def Concerted (sys : System) (t : Team) (s : Valuation) : Prop :=
  ∃ ρ, ∀ u, sys.Reachable u → t.Same s u → ∃ τ ∈ sys.trans.members, sys.stateOf τ = u ∧ t.Plays τ ρ

variable {sys : System} {t : Team} {goal : Goal} {s : Valuation} {U V X : Set Valuation}

theorem reached_won {protocol : Region} (free : sys.fairness = []) (kind : goal.kind = .strong) (inside : U ⊆ protocol.members)
    (le : U ⊆ V) (reached : U ⊆ goal.right.members) : U ⊆ sys.won t protocol goal V := by
  intro μ member
  have none : ((sys.arena t protocol).on V).constraints = [] := List.map_eq_nil_iff.mpr free
  rw [System.won, kind]
  exact Arena.reached_wins none (reached member) ⟨inside member, le member⟩

namespace WellFormed

variable (wf : sys.WellFormed) (of : t.Of sys)

include wf of

theorem protocol_of_trans {τ : Valuation} (trans : τ ∈ sys.trans.members) (reached : sys.Reachable (sys.stateOf τ)) :
    τ ∈ (sys.protocolOf t).members :=
  (wf.mem_protocol of).mpr ⟨wf.trans_inputs trans, τ, trans, reached, rfl, .refl t τ⟩

-- Moves that agree, and of which there are some wherever the team may be, have one action in common there.
theorem concerted_of_sure (inside : U ⊆ (sys.protocolOf t).members) (agreeing : Agreeing [t] U) (sure : sys.Sure .group t U s) :
    sys.Concerted t s := by
  obtain ⟨⟨ρ, here, rfl⟩, others⟩ := sure
  refine ⟨ρ, fun u reached same => ?_⟩
  obtain ⟨μ, there, rfl⟩ := others t (List.mem_singleton_self t) u reached same
  obtain ⟨_, τ, trans, _, state, plays⟩ := (wf.mem_protocol of).mp (inside there)
  have looks := (wf.same_states of).mp same.symm
  exact ⟨τ, trans, state, plays.trans (agreeing t (List.mem_singleton_self t) μ there ρ here looks)⟩

theorem sure_of_concerted (reached : sys.Reachable s) (concerted : sys.Concerted t s) :
    ∃ U ⊆ (sys.protocolOf t).members, (∀ μ ∈ U, t.Same s μ) ∧ Agreeing [t] U ∧ sys.Sure .group t U s := by
  obtain ⟨ρ, acts⟩ := concerted
  let U : Set Valuation := {μ | μ ∈ (sys.protocolOf t).members ∧ t.Same s μ ∧ t.Plays μ ρ}
  have each : ∀ u, sys.Reachable u → t.Same s u → ∃ μ ∈ U, sys.stateOf μ = u := by
    intro u reached same
    obtain ⟨τ, trans, rfl, plays⟩ := acts u reached same
    exact ⟨τ, ⟨wf.protocol_of_trans of trans reached, same.trans (wf.same_state_of of τ).symm, plays⟩, rfl⟩
  refine ⟨U, fun μ member => member.1, fun μ member => member.2.1, fun w viewer μ here ν there _ => ?_, each s reached (.refl t s),
    fun w viewer => ?_⟩
  · obtain rfl := List.mem_singleton.mp viewer
    exact here.2.2.trans there.2.2.symm
  · obtain rfl := List.mem_singleton.mp viewer
    exact each

theorem known_of_same {X : Region} (known : sys.StateSet X) (knows : sys.Knows t X.members s)
    (inside : U ⊆ (sys.protocolOf t).members) (looks : ∀ μ ∈ U, t.Same s μ) : U ⊆ X.members := fun μ member =>
  (Frame.mem_state_of known.reads).mp (knows _ (wf.mem_reachable.mp (wf.protocol_inside of (inside member)).2)
    ((looks μ member).trans (wf.same_state_of of μ)))

theorem winnable_iff_concerted (free : sys.fairness = []) (right : sys.StateSet goal.right) (kind : goal.kind = .strong)
    (reached : sys.Reachable s) (knows : sys.Knows t goal.right.members s) :
    sys.Winnable .group t (sys.protocolOf t) goal (sys.protocolOf t).members s ↔ sys.Concerted t s := by
  constructor
  · rintro ⟨U, le, agreeing, sure⟩
    exact wf.concerted_of_sure of le agreeing (sure.mono won_subset)
  · intro concerted
    obtain ⟨U, inside, looks, agreeing, sure⟩ := wf.sure_of_concerted of reached concerted
    exact ⟨U, inside, agreeing, sure.mono (reached_won free kind inside (Set.Subset.refl U) (wf.known_of_same of right knows inside looks))⟩

end WellFormed

end System

namespace Search

variable {s : Search} {goal : Goal} {I : Memory → Prop} {must exactLeft exactRight : Prop}

theorem Found.reached {strategy source : Region} {won U : Set Valuation} (found : s.Found goal exactLeft exactRight strategy source won)
    (exactly : exactRight) (free : s.ev.sys.fairness = []) (kind : goal.kind = .strong) (inside : U ⊆ s.protocol.members)
    (le : U ⊆ strategy.members) (reached : U ⊆ goal.right.members) : U ⊆ won := by
  obtain ⟨cut, cutTo, rfl⟩ := found
  refine System.reached_won free (cutTo.kind.trans kind) inside le fun μ member => ?_
  rw [cutTo.right exactly, Region.members_inter]
  unfold asked
  rw [if_neg (by simp [kind])]
  exact ⟨reached member, Region.hide_subset _ _ (le member)⟩

section

variable (poses : s.Poses goal I must exactLeft exactRight)

include poses

theorem sound_concerted : s.Sound goal exactLeft exactRight {ρ | s.ev.sys.Concerted s.team (s.ev.sys.stateOf ρ)} := by
  rintro U source _ ρ start _ ⟨cut, _, rfl⟩ sure
  have agreeing : Agreeing (s.team.viewers s.ev.options.semantics) U.members := start.agreeing
  rw [poses.group] at agreeing
  exact poses.system.concerted_of_sure poses.team (poses.protocol ▸ start.inside) agreeing (sure.mono System.won_subset)

variable (free : s.ev.sys.fairness = []) (kind : goal.kind = .strong) (exactly : exactRight)

include free kind exactly

section

variable {D moves : Region} (ground : s.Ground D moves)
  (made : moves = s.protocol ∨ s.Found goal exactLeft exactRight (s.protocol.inter (s.ev.sys.reachFrom D)) D moves.members)

include ground made

theorem concerted_offered {ρ : Valuation} (here : ρ ∈ D.members) (knows : s.ev.sys.Knows s.team goal.right.members (s.ev.sys.stateOf ρ))
    (concerted : s.ev.sys.Concerted s.team (s.ev.sys.stateOf ρ)) :
    ∃ U ⊆ s.protocol.members, (∀ μ ∈ U, s.team.Same ρ μ) ∧ U ⊆ goal.right.members ∧ Agreeing [s.team] U ∧
      s.ev.sys.Sure .group s.team U (s.ev.sys.stateOf ρ) ∧ U ⊆ moves.members := by
  have wf := poses.system
  have reached := wf.mem_reachable.mp (ground.reached here)
  obtain ⟨U, inside, looks, agreeing, sure⟩ := wf.sure_of_concerted poses.team reached concerted
  have own := wf.known_of_same poses.team poses.operands.rightKnown knows inside looks
  have same : ∀ μ ∈ U, s.team.Same ρ μ := fun μ member => (wf.same_state_of poses.team ρ).trans (looks μ member)
  have played : U ⊆ s.protocol.members := poses.protocol ▸ inside
  refine ⟨U, played, same, own, agreeing, sure, ?_⟩
  obtain rfl | found := made
  · exact played
  · refine found.reached exactly free kind played (fun μ member => ?_) own
    rw [Region.members_inter]
    exact ⟨played member, wf.subset_reach_from ground.known
      (ground.spread ρ here μ (poses.plays.played.reached (played member)) (same μ member))⟩

theorem catches_known : s.Catches goal exactLeft exactRight D moves {ρ |
    s.ev.sys.Knows s.team goal.right.members (s.ev.sys.stateOf ρ) ∧ s.ev.sys.Concerted s.team (s.ev.sys.stateOf ρ)} := by
  have wf := poses.system
  constructor
  · rintro remaining known le ρ member ⟨knows, concerted⟩
    obtain ⟨U, inside, looks, own, agreeing, sure, offered⟩ := concerted_offered poses free kind exactly ground made (le member) knows concerted
    have closedKnown := close_state_set wf known
    obtain ⟨parts, each⟩ := starts_spec poses.plays closedKnown ground.inside ground.reads
    have listing := (mem_strategies poses.plays closedKnown ground.inside ground.reads).2
    have viewers : s.team.viewers s.ev.options.semantics = [s.team] := by rw [poses.group]; rfl
    have near := subset_close wf poses.group poses.team known member (ground.reached (le member))
    have started : U ⊆ ((s.close remaining).inter moves).members := fun μ member' => by
      rw [Region.members_inter]
      exact ⟨close_spread wf poses.group poses.team known near (poses.plays.played.reached (inside member')) (looks μ member'),
        offered member'⟩
    obtain ⟨start, listed, taken⟩ := parts.complete U started (by rw [Set.union_empty, viewers]; exact agreeing)
    obtain ⟨V, extended⟩ := (each start listed).2.some
    refine ⟨V, (listing V).mpr ⟨start, listed, extended⟩, fun won found => sure.mono ?_⟩
    exact found.reached exactly free kind inside (taken.trans ((each start listed).2.above V extended)) own
  · rintro ρ here ⟨knows, concerted⟩
    obtain ⟨U, _, _, _, _, sure, offered⟩ := concerted_offered poses free kind exactly ground made here knows concerted
    exact sure.mono offered

end

-- Where the goal is known to be reached, the search finds whether the team has one action for all states that look the same.
theorem run_known {D : Region} (known : s.ev.sys.StateSet D) (reached : D.members ⊆ s.ev.sys.reachable.members)
    (spread : ∀ ρ ∈ D.members, ∀ σ ∈ s.ev.sys.reachable.members, s.team.Same ρ σ → σ ∈ D.members) :
    Eval.Meets I must (s.run D) fun r => ∀ ρ, s.ev.sys.Knows s.team goal.right.members (s.ev.sys.stateOf ρ) →
      (ρ ∈ r.members ↔ ρ ∈ D.members ∧ s.ev.sys.Concerted s.team (s.ev.sys.stateOf ρ)) := by
  refine (run_meets poses known reached spread (sound_concerted poses) fun moves ground made =>
    catches_known poses free kind exactly ground made).mono fun r found ρ knows => ?_
  exact ⟨fun member => found.2.1 member, fun here => found.2.2 ⟨here.1, knows, here.2⟩⟩

end

end Search

end Coalition
