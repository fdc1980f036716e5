import Coalition.Proofs.Evaluation.FreeChoice
import Coalition.Proofs.Evaluation.Strategies
import Coalition.Proofs.Model.Compiled
import Coalition.Proofs.Model.Decoded

-- Decoded to values, successors, predecessors, what is reached and what a team can force are told by the transitions between values.

set_option autoImplicit false

namespace Coalition

namespace System

variable {sys : System} {t : Team} {i j : sys.Input} {ρ σ : Valuation} {target moves : Region}

def PlayedAlike (sys : System) (t : Team) (i j : sys.Input) : Prop := ∀ v : {v : Variable // v ∈ sys.inputVars}, v.1 ∈ t.actions → i v = j v

def Enabled (sys : System) (t : Team) (s : sys.State) (i : sys.Input) : Prop := ∃ j u, sys.PlayedAlike t j i ∧ sys.Leads s j u

namespace WellFormed

variable (wf : sys.WellFormed) (sized : ∀ v ∈ sys.vars, v.Sized) (of : t.Of sys)

include wf of

theorem forcing_state_set (targetReads : target.Reads sys.moveBit) (movesReads : moves.Reads sys.moveBit) :
    sys.StateSet (sys.forcingStates t (sys.protocolOf t) target moves) := by
  refine Frame.state_set_of_moves wf.laid (fun ρ member => ?_) (wf.forcing_reads (wf.protocol_reads t) targetReads movesReads)
  exact (wf.protocol_inside of ((wf.mem_forcing_moves of targetReads).mp member).1).1

include sized

theorem played_alike_iff (first : i.Coded false ρ) (second : j.Coded false σ) : sys.PlayedAlike t i j ↔ t.Plays ρ σ := by
  constructor
  · intro alike b bit
    obtain ⟨v, listed, here⟩ := List.mem_flatMap.mp bit
    have input := wf.action_input of listed
    have stored := second ⟨v, input⟩
    rw [← alike ⟨v, input⟩ listed] at stored
    exact (first ⟨v, input⟩).same stored (sized v (List.mem_append_right _ input)).nodup here
  · intro plays v listed
    refine (first v).unique (second v) (sized v.1 (List.mem_append_right _ v.2)).bits fun b bit => plays b ?_
    exact List.mem_flatMap.mpr ⟨v.1, listed, bit⟩

theorem mem_protocol_iff {s : sys.State} (here : s.Coded false ρ) (played : i.Coded false ρ) :
    ρ ∈ (sys.protocolOf t).members ↔ sys.Reaches s ∧ sys.Enabled t s i := by
  rw [wf.mem_protocol of, wf.reaches_iff sized here]
  constructor
  · rintro ⟨_, τ, trans, reached, same, plays⟩
    obtain ⟨_, j, u, _, action, leads⟩ := wf.exists_values trans
    refine ⟨same ▸ reached, j, u, (wf.played_alike_iff sized of action played).mpr plays, τ, trans, ?_, action, leads⟩
    exact (Frame.state_coded_iff sized here).mpr same
  · rintro ⟨reached, j, u, alike, τ, trans, state, action, _⟩
    have same := (Frame.state_coded_iff sized here).mp state
    refine ⟨sys.inputs_mask_eq ▸ played.masked, τ, trans, same.symm ▸ reached, same, ?_⟩
    exact (wf.played_alike_iff sized of action played).mp alike

theorem states_in_forcing (targetReads : target.Reads sys.moveBit) (movesReads : moves.Reads sys.moveBit) :
    sys.statesIn (sys.forcingStates t (sys.protocolOf t) target moves) =
      {s | sys.Reaches s ∧ ∃ i, (s, i) ∈ sys.movesIn moves ∧ sys.Enabled t s i ∧
        ∀ j u, sys.PlayedAlike t j i → sys.Leads s j u → u ∈ sys.statesIn target} := by
  have reads := wf.forcing_reads (t := t) (wf.protocol_reads t) targetReads movesReads
  ext s
  constructor
  · rintro ⟨ρ, member, coded⟩
    obtain ⟨σ, forced, same⟩ := (Frame.mem_hide_inputs wf.laid reads).mp member
    obtain ⟨played, inside, leads⟩ := (wf.mem_forcing_moves of targetReads).mp forced
    have here : s.Coded false σ := (Frame.state_coded_iff sized coded).mpr same
    obtain ⟨i, action⟩ := Assignment.exists_coded (sys.inputs_mask_eq ▸ ((wf.mem_protocol of).mp played).1)
    obtain ⟨reached, enabled⟩ := (wf.mem_protocol_iff sized of here action).mp played
    refine ⟨reached, i, ⟨σ, inside, here, action⟩, enabled, ?_⟩
    -- a completion is any transition that starts here and has the team's values, whatever its other bits are
    rintro j u alike ⟨τ, trans, state, other, next⟩
    refine (Frame.mem_states_in sized ((Frame.state_next_iff wf.laid).mp next)).mpr (leads τ trans ?_ ?_)
    · exact (Frame.state_coded_iff sized here).mp state
    · exact (wf.played_alike_iff sized of other action).mp alike
  · rintro ⟨reached, i, ⟨σ, inside, here, action⟩, enabled, leads⟩
    refine ⟨σ, (Frame.mem_hide_inputs wf.laid reads).mpr ⟨σ, ?_, rfl⟩, here⟩
    refine (wf.mem_forcing_moves of targetReads).mpr ⟨(wf.mem_protocol_iff sized of here action).mpr ⟨reached, enabled⟩, inside, ?_⟩
    intro τ trans same plays
    obtain ⟨_, j, u, _, other, next⟩ := wf.exists_values trans
    have state : s.Coded false τ := (Frame.state_coded_iff sized here).mpr same
    have into := leads j u ((wf.played_alike_iff sized of other action).mpr plays) ⟨τ, trans, state, other, next⟩
    exact (Frame.mem_states_in sized ((Frame.state_next_iff wf.laid).mp next)).mp into

end WellFormed

/-- For every model that is built, images, preimages and reached states are those of the transitions between values, and images meet a
target where its preimage meets the source. So is what a team forces, with the protocol it gets from any memory where keys tell teams
apart. -/
theorem images_relational {d : Description} (built : d.build = .ok sys) :
    (∀ source : Region, source.Reads sys.moveBit → sys.StateSet (sys.post source) ∧
      sys.statesIn (sys.post source) = {u | ∃ s i, (s, i) ∈ sys.movesIn source ∧ sys.Leads s i u}) ∧
    (∀ target moves : Region, target.Reads sys.moveBit → moves.Reads sys.moveBit →
      (sys.preInputs target moves).members ⊆ sys.movesMask.members ∧ (sys.preInputs target moves).Reads sys.moveBit ∧
      sys.movesIn (sys.preInputs target moves) =
        {move | move ∈ sys.movesIn moves ∧ ∃ u ∈ sys.statesIn target, sys.Leads move.1 move.2 u}) ∧
    (∀ target : Region, target.Reads sys.moveBit → sys.StateSet (sys.pre target) ∧
      sys.pre target = (sys.preInputs target .univ).hide sys.inputBits ∧
      sys.statesIn (sys.pre target) = {s | ∃ i, ∃ u ∈ sys.statesIn target, sys.Leads s i u}) ∧
    (∀ source : Region, source.Reads sys.moveBit → sys.StateSet (sys.reachFrom source) ∧
      sys.statesIn (sys.reachFrom source) = {u | ∃ s ∈ sys.statesIn source, Relation.ReflTransGen sys.StepsTo s u}) ∧
    (∀ source target : Region, source.Reads sys.stateBit → target.Reads sys.stateBit →
      ((sys.post source).meets target = true ↔ source.meets (sys.pre target) = true)) ∧
    ∀ teams : Team → Prop, KeyedApart teams → ∀ (names : List String) (t : Team), sys.team names = .ok t → teams t →
      ∃ protocol, Recall.Answers sys teams names protocol ∧ ∀ target moves : Region, target.Reads sys.moveBit → moves.Reads sys.moveBit →
        sys.StateSet (sys.forcingStates t protocol target moves) ∧ sys.statesIn (sys.forcingStates t protocol target moves) =
          {s | sys.Reaches s ∧ ∃ i, (s, i) ∈ sys.movesIn moves ∧ sys.Enabled t s i ∧
            ∀ j u, sys.PlayedAlike t j i → sys.Leads s j u → u ∈ sys.statesIn target} := by
  have wf := d.build_well_formed _ built
  have sized : ∀ v ∈ sys.vars, v.Sized := fun v member => ((d.build_compiled _ built).sized v member).1
  refine ⟨fun source reads => ⟨wf.post_state_set reads, wf.states_in_post sized reads⟩, fun target moves targetReads movesReads => ?_,
    fun target reads => ⟨wf.pre_state_set reads, sys.pre_projection target, wf.states_in_pre sized reads⟩,
    fun source reads => ⟨(wf.reach_from_spec reads).1, wf.states_in_reach_from sized reads⟩,
    fun source target sourceReads targetReads => wf.post_meets_iff sourceReads targetReads, fun teams apart names t found known => ?_⟩
  · obtain ⟨inside, reads⟩ := wf.pre_inputs_move_set targetReads movesReads
    exact ⟨inside, reads, wf.moves_in_pre_inputs sized targetReads movesReads⟩
  · have of := (team_spec found).1
    exact ⟨_, Recall.answers apart known found, fun target moves targetReads movesReads =>
      ⟨wf.forcing_state_set of targetReads movesReads, wf.states_in_forcing sized of targetReads movesReads⟩⟩

theorem images_relational_lamp : ∃ (sys : System) (t : Team) (protocol : Region), lamp.build = .ok sys ∧ sys.team ["hand"] = .ok t ∧
    Recall.Answers sys (· = t) ["hand"] protocol ∧
    sys.statesIn (sys.post sys.init) = {u | ∃ s i, (s, i) ∈ sys.movesIn sys.init ∧ sys.Leads s i u} ∧
    sys.statesIn (sys.forcingStates t protocol sys.init .univ) =
      {s | sys.Reaches s ∧ ∃ i, (s, i) ∈ sys.movesIn .univ ∧ sys.Enabled t s i ∧
        ∀ j u, sys.PlayedAlike t j i → sys.Leads s j u → u ∈ sys.statesIn sys.init} := by
  obtain ⟨sys, t, built, coalition⟩ := lamp_builds
  have reads := (lamp.build_well_formed sys built).init.reads.mono sys.state_subset_move
  obtain ⟨post, _, _, _, _, forces⟩ := images_relational built
  have apart : KeyedApart (· = t) := fun u w here there _ => Eq.trans here there.symm
  obtain ⟨protocol, answers, forced⟩ := forces (· = t) apart ["hand"] t coalition rfl
  exact ⟨sys, t, protocol, built, coalition, answers, (post _ reads).2, (forced _ _ reads (Region.reads_univ _)).2⟩

end System

end Coalition
