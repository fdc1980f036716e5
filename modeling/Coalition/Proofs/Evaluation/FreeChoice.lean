import Coalition.Proofs.Evaluation.LargerTeams
import Coalition.Proofs.Model.Owners

-- When no joint move of the agents, each within its own protocol, is blocked, teams without members in common act independently: what
-- they may do together is what each may do, and together they force what each forces.

set_option autoImplicit false

namespace Coalition

namespace System

variable {sys : System} {t u v : Team} {ρ τ : Valuation}

-- Every well-formed move at a reachable state where each agent plays within its own protocol belongs to a transition.
def ChosenFreely (sys : System) : Prop :=
  ∀ ρ ∈ sys.inputsMask.members, sys.Reachable (sys.stateOf ρ) →
    (∀ a ∈ sys.agents, ρ ∈ (sys.protocolOf ⟨[a]⟩).members) →
    ∃ τ ∈ sys.trans.members, sys.stateOf τ = sys.stateOf ρ ∧ ∀ a ∈ sys.agents, Team.Plays ⟨[a]⟩ τ ρ

theorem single_agent_of {a : Agent} (known : a ∈ sys.agents) : (⟨[a]⟩ : Team).Of sys := fun _ only =>
  List.mem_singleton.mp only ▸ known

theorem plays_of_members (each : ∀ a ∈ t.members, Team.Plays ⟨[a]⟩ ρ τ) : t.Plays ρ τ := by
  intro b bit
  obtain ⟨w, listed, here⟩ := List.mem_flatMap.mp bit
  obtain ⟨a, member, acts⟩ := List.mem_flatMap.mp listed
  refine each a member b (List.mem_flatMap.mpr ⟨w, ?_, here⟩)
  exact List.mem_flatMap.mpr ⟨a, List.mem_singleton_self a, acts⟩

theorem member_plays {a : Agent} (member : a ∈ t.members) (plays : t.Plays ρ τ) : Team.Plays ⟨[a]⟩ ρ τ := fun b bit =>
  plays b (Team.action_bits_subset (fun _ only => List.mem_singleton.mp only ▸ member) bit)

theorem WellFormed.mem_forcing_states (wf : sys.WellFormed) (of : t.Of sys) {target : Region} (known : sys.StateSet target)
    {s : Valuation} : s ∈ (sys.forcingStates t (sys.protocolOf t) target .univ).members ↔ ∃ ρ ∈ (sys.protocolOf t).members,
      (∀ τ ∈ sys.trans.members, sys.stateOf τ = sys.stateOf ρ → t.Plays τ ρ → sys.nextOf τ ∈ target.members) ∧
        sys.stateOf ρ = sys.stateOf s := by
  have reads := wf.forcing_reads (t := t) (wf.protocol_reads t) known.moves (Region.reads_univ _)
  unfold forcingStates
  rw [Frame.mem_hide_inputs wf.laid reads]
  refine exists_congr fun ρ => ?_
  rw [wf.mem_forcing_moves of known.moves]
  simp only [Frame.has_state_of_reads known.reads, Region.members_univ, Set.mem_univ, true_and, and_assoc]

theorem WellFormed.forces_something (wf : sys.WellFormed) (of : t.Of sys) {target : Region} (known : sys.StateSet target)
    (none : target.members = ∅) : (sys.forcingStates t (sys.protocolOf t) target .univ).members = ∅ := by
  refine Set.eq_empty_iff_forall_notMem.mpr fun s forced => ?_
  obtain ⟨ρ, inside, leads, _⟩ := (wf.mem_forcing_states of known).mp forced
  obtain ⟨_, τ, trans, _, same, plays⟩ := (wf.mem_protocol of).mp inside
  exact Set.eq_empty_iff_forall_notMem.mp none _ (leads τ trans same plays)

section

variable (free : sys.ChosenFreely) (wf : sys.WellFormed) (owned : sys.Owned) (of : t.Of sys) (ofToo : u.Of sys) (whole : v.Of sys)
  (disjoint : ∀ a ∈ t.members, a ∉ u.members) (union : ∀ a, a ∈ v.members ↔ a ∈ t.members ∨ a ∈ u.members)

include free wf owned of ofToo whole disjoint union

-- Moves of two teams at one state make up a move of both. All other agents go along with the transition that completes the first, so that
-- every agent is within its own protocol.
theorem joined_protocol (first : ρ ∈ (sys.protocolOf t).members) (second : τ ∈ (sys.protocolOf u).members)
    (same : sys.stateOf ρ = sys.stateOf τ) : t.joined ρ τ ∈ (sys.protocolOf v).members := by
  obtain ⟨inputs, μ, trans, reached, here, plays⟩ := (wf.mem_protocol of).mp first
  obtain ⟨inputsToo, ν, transToo, reachedToo, there, playsToo⟩ := (wf.mem_protocol ofToo).mp second
  have apart : ∀ {w : Team}, w.Of sys → (∀ a ∈ w.members, a ∉ t.members) → ∀ b ∈ w.actionBits, b ∉ t.actionBits :=
    fun known none b bit => owned.apart wf known of none bit
  have uApart := apart ofToo fun a member => fun before => disjoint a before member
  let σ := t.joined ρ (u.joined τ μ)
  have state : sys.stateOf σ = sys.stateOf ρ := ((Team.joined_state wf of _ _).trans (Team.joined_state wf ofToo _ _)).trans here
  have tPlays : t.Plays σ ρ := Team.joined_plays t _ _
  have uPlays : u.Plays σ τ := (Team.joined_leaves uApart _ _).trans (Team.joined_plays u _ _)
  have legal : σ ∈ sys.inputsMask.members :=
    Team.joined_inputs wf of inputs (Team.joined_inputs wf ofToo inputsToo (wf.trans_inputs trans))
  have within : ∀ a ∈ sys.agents, σ ∈ (sys.protocolOf ⟨[a]⟩).members := by
    intro a known
    have single := single_agent_of known
    rw [wf.mem_protocol single]
    by_cases tMember : a ∈ t.members
    · exact ⟨legal, μ, trans, reached, here.trans state.symm, member_plays tMember (plays.trans tPlays.symm)⟩
    · by_cases uMember : a ∈ u.members
      · exact ⟨legal, ν, transToo, reachedToo, there.trans (same.symm.trans state.symm),
          member_plays uMember (playsToo.trans uPlays.symm)⟩
      · have none : ∀ {w : Team}, a ∉ w.members → ∀ c ∈ (⟨[a]⟩ : Team).members, c ∉ w.members := fun absent c only =>
          List.mem_singleton.mp only ▸ absent
        have aPlays : Team.Plays ⟨[a]⟩ σ μ := (Team.joined_leaves (apart single (none tMember)) _ _).trans
          (Team.joined_leaves (fun b bit => owned.apart wf single ofToo (none uMember) bit) _ _)
        exact ⟨legal, μ, trans, reached, here.trans state.symm, aPlays.symm⟩
  obtain ⟨κ, next, sameToo, each⟩ := free σ legal (state.symm ▸ here ▸ reached) within
  have joint := (Team.joined_state wf of ρ τ).trans same.symm
  refine (wf.mem_protocol whole).mpr ⟨Team.joined_inputs wf of inputs inputsToo, κ, next, ?_, (sameToo.trans state).trans joint.symm, ?_⟩
  · rw [sameToo, state, ← here]
    exact reached
  · refine plays_of_members fun a member => (each a (whole a member)).trans ?_
    obtain tMember | uMember := (union a).mp member
    · exact member_plays tMember (tPlays.trans (Team.joined_plays t _ _).symm)
    · exact member_plays uMember (uPlays.trans (Team.joined_leaves uApart _ _).symm)

theorem protocol_of_union : sys.protocolOf v = (sys.protocolOf t).inter (sys.protocolOf u) := by
  have smaller : ∀ {w : Team}, w.Of sys → w.members ⊆ v.members → (sys.protocolOf v).members ⊆ (sys.protocolOf w).members := by
    intro w known included ρ member
    obtain ⟨inputs, μ, trans, reached, here, plays⟩ := (wf.mem_protocol whole).mp member
    exact (wf.mem_protocol known).mpr ⟨inputs, μ, trans, reached, here, fun b bit => plays b (Team.action_bits_subset included bit)⟩
  apply Region.members_injective
  rw [Region.members_inter]
  refine Set.Subset.antisymm (Set.subset_inter ?_ ?_) ?_
  · exact smaller of fun a member => (union a).mpr (.inl member)
  · exact smaller ofToo fun a member => (union a).mpr (.inr member)
  · rintro ρ ⟨first, second⟩
    have joint := joined_protocol free wf owned of ofToo whole disjoint union first second rfl
    rwa [Team.joined_self] at joint

theorem forcing_of_union {left right : Region} (known : sys.StateSet left) (knownToo : sys.StateSet right) :
    ((sys.forcingStates t (sys.protocolOf t) left .univ).inter (sys.forcingStates u (sys.protocolOf u) right .univ)).members ⊆
      (sys.forcingStates v (sys.protocolOf v) (left.inter right) .univ).members := by
  have both : sys.StateSet (left.inter right) :=
    ⟨(Region.inter_subset_left _ _).trans known.inside, known.reads.inter knownToo.reads⟩
  rw [Region.members_inter]
  rintro s ⟨first, second⟩
  obtain ⟨ρ, inside, leads, here⟩ := (wf.mem_forcing_states of known).mp first
  obtain ⟨τ, insideToo, leadsToo, there⟩ := (wf.mem_forcing_states ofToo knownToo).mp second
  have same := here.trans there.symm
  have joint := Team.joined_state wf of ρ τ
  refine (wf.mem_forcing_states whole both).mpr ⟨t.joined ρ τ, joined_protocol free wf owned of ofToo whole disjoint union inside insideToo same,
    fun μ trans state plays => ?_, joint.trans there⟩
  have apart : ∀ b ∈ u.actionBits, b ∉ t.actionBits := fun b bit =>
    owned.apart wf ofToo of (fun a member before => disjoint a before member) bit
  have part : ∀ {w : Team}, w.members ⊆ v.members → w.Plays μ (t.joined ρ τ) := fun included b bit =>
    plays b (Team.action_bits_subset included bit)
  rw [Region.members_inter]
  constructor
  · exact leads μ trans ((state.trans joint).trans same.symm)
      ((part fun a member => (union a).mpr (.inl member)).trans (Team.joined_plays t ρ τ))
  · exact leadsToo μ trans (state.trans joint)
      ((part fun a member => (union a).mpr (.inr member)).trans (Team.joined_leaves apart ρ τ))

end

theorem agent_of_name (distinct : (sys.agents.map (·.name)).Nodup) {a : Agent} (known : a ∈ sys.agents) : sys.agent? a.name = some a := by
  cases found : sys.agent? a.name with
  | none =>
      have absent := List.find?_eq_none.mp found a known
      simp at absent
  | some c =>
      have named : c.name = a.name := by simpa using List.find?_some found
      exact congrArg some (List.inj_on_of_nodup_map distinct (List.mem_of_find?_eq_some found) known named)

theorem team_of_agents (distinct : (sys.agents.map (·.name)).Nodup) {agents : List Agent} (known : ∀ a ∈ agents, a ∈ sys.agents) :
    sys.team (agents.map (·.name)) = .ok ⟨agents⟩ := by
  have each : (agents.map (·.name)).mapM (fun name => (sys.agent? name).elim (.error (Error.unknownAgent name)) .ok) = Except.ok agents := by
    induction agents with
    | nil => rfl
    | cons a rest ih =>
        obtain ⟨first, others⟩ := List.forall_mem_cons.mp known
        rw [List.map_cons, List.mapM_cons, agent_of_name distinct first, ih others]
        rfl
  unfold team
  rw [each]
  rfl

theorem mem_team (distinct : (sys.agents.map (·.name)).Nodup) {names : List String} (found : sys.team names = .ok t) {a : Agent} :
    a ∈ t.members ↔ a ∈ sys.agents ∧ a.name ∈ names := by
  obtain ⟨of, rfl⟩ := team_spec found
  refine ⟨fun member => ⟨of a member, List.mem_map_of_mem member⟩, fun ⟨known, named⟩ => ?_⟩
  obtain ⟨c, member, same⟩ := List.mem_map.mp named
  exact List.inj_on_of_nodup_map distinct (of c member) known same ▸ member

theorem plain_teams_apart (wf : sys.WellFormed) (distinct : (sys.agents.map (·.name)).Nodup)
    (plain : ∀ a ∈ sys.agents, ',' ∉ a.name.toList) : KeyedApart (·.Of sys) := by
  intro t u of ofToo same
  have named : ∀ {w : Team}, w.Of sys → ∀ x ∈ w.names, x ≠ "" ∧ ',' ∉ x.toList := by
    intro w known x listed
    obtain ⟨a, member, rfl⟩ := List.mem_map.mp listed
    exact ⟨(wf.agents a (known a member)).named, plain a (known a member)⟩
  have found := team_of_agents distinct of
  have foundToo := team_of_agents distinct ofToo
  rw [show t.members.map (·.name) = u.members.map (·.name) from team_key_injective (named of) (named ofToo) same, foundToo] at found
  exact (Except.ok.inj found).symm

end System

namespace Recall

variable {sys : System} {teams : Team → Prop} {memory : Recall} {names : List String} {t : Team}

def Tells (memory : Recall) (sys : System) (teams : Team → Prop) : Prop :=
  ∀ w, teams w → ∀ region, memory.protocols.lookup w.key = some region → region = sys.protocolOf w

theorem empty_tells (sys : System) (teams : Team → Prop) : ({} : Recall).Tells sys teams := by simp [Tells]

def Answers (sys : System) (teams : Team → Prop) (names : List String) (protocol : Region) : Prop :=
  ∀ memory : Recall, memory.Tells sys teams → ∃ after, memory.protocol sys names = .ok (protocol, after) ∧ after.Tells sys teams

theorem answers (apart : KeyedApart teams) (known : teams t) (found : sys.team names = .ok t) :
    Answers sys teams names (sys.protocolOf t) := by
  intro memory tells
  obtain ⟨_, rfl⟩ := System.team_spec found
  unfold Recall.protocol
  cases looked : memory.protocols.lookup (teamKey t.names) with
  | some region =>
      obtain rfl := tells t known region looked
      exact ⟨memory, rfl, tells⟩
  | none =>
      simp only [found]
      exact ⟨_, rfl, Memory.Keeps.lookup_cons (P := fun w region => region = sys.protocolOf w) apart known rfl tells⟩

end Recall

namespace System

variable {sys : System} {t u v : Team} {teams : Team → Prop}

def blocked (sys : System) : Region :=
  ((sys.agents.map fun a => sys.protocolOf ⟨[a]⟩).foldl Region.inter (sys.reachable.inter sys.inputsMask)).diff
    ((sys.trans.hide sys.nextBits).hide (sys.otherInputs ⟨sys.agents⟩))

theorem WellFormed.chosen_freely (wf : sys.WellFormed) (none : sys.blocked.isEmpty = true) : sys.ChosenFreely := by
  intro ρ legal reached within
  have enabledReads : (sys.trans.hide sys.nextBits).Reads sys.moveBit := by
    refine (wf.transReads.hide sys.nextBits).mono ?_
    rintro b ⟨(state | next) | input, shown⟩
    · exact .inl state
    · exact absurd next shown
    · exact .inr input
  have enabled : ρ ∈ ((sys.trans.hide sys.nextBits).hide (sys.otherInputs ⟨sys.agents⟩)).members := by
    by_contra out
    rw [blocked, Region.is_empty_members, Region.members_diff] at none
    refine Set.eq_empty_iff_forall_notMem.mp none ρ ⟨Region.mem_fold_inter.mpr ⟨?_, List.forall_mem_map.mpr within⟩, out⟩
    exact Region.members_inter _ _ ▸ ⟨wf.mem_reachable.mpr reached, legal⟩
  obtain ⟨σ, possible, same, plays⟩ := (wf.hide_others enabledReads).mp enabled
  obtain ⟨τ, trans, agree⟩ := Region.mem_hide.mp possible
  have joint : Team.Plays ⟨sys.agents⟩ τ ρ := Team.Plays.trans (fun b bit => agree b
    (wf.laid.inputApart b (wf.action_bit (fun _ member => member) bit)).2) plays
  refine ⟨τ, trans, ?_, fun a known => member_plays (t := ⟨sys.agents⟩) known joint⟩
  exact (Frame.state_of_eq_iff.mpr fun b state => agree b (Frame.state_not_next wf.laid state)).trans same

section

variable (distinct : (sys.agents.map (·.name)).Nodup) (apart : KeyedApart teams) (singles : ∀ a ∈ sys.agents, teams ⟨[a]⟩)

include distinct apart singles

theorem protocols_asked (agents : List Agent) (known : ∀ a ∈ agents, a ∈ sys.agents) (start : Region) {memory : Recall}
    (tells : memory.Tells sys teams) :
    ∃ after, (agents.map (·.name)).foldlM (fun (joint, memory) name => do
        let (protocol, memory) ← Recall.protocol sys [name] memory
        return (joint.inter protocol, memory)) (start, memory) =
      Except.ok ((agents.map fun a => sys.protocolOf ⟨[a]⟩).foldl Region.inter start, after) ∧ after.Tells sys teams := by
  induction agents generalizing start memory with
  | nil => exact ⟨memory, rfl, tells⟩
  | cons a rest ih =>
      obtain ⟨first, others⟩ := List.forall_mem_cons.mp known
      have found : sys.team [a.name] = .ok ⟨[a]⟩ :=
        @team_of_agents sys distinct [a] fun c only => List.mem_singleton.mp only ▸ first
      obtain ⟨next, told, still⟩ := Recall.answers apart (singles a first) found memory tells
      obtain ⟨after, more, keeps⟩ := ih others (start.inter (sys.protocolOf ⟨[a]⟩)) still
      refine ⟨after, ?_, keeps⟩
      rw [List.map_cons, List.foldlM_cons]
      dsimp only
      rw [told]
      exact more

theorem blocked_choices_asked {memory : Recall} (tells : memory.Tells sys teams) :
    ∃ after, sys.blockedChoices memory = .ok (sys.blocked, after) ∧ after.Tells sys teams := by
  obtain ⟨after, ran, keeps⟩ :=
    protocols_asked distinct apart singles sys.agents (fun _ known => known) (sys.reachable.inter sys.inputsMask) tells
  have owners : sys.team (sys.agents.map (·.name)) = .ok ⟨sys.agents⟩ := team_of_agents distinct fun _ known => known
  refine ⟨after, ?_, keeps⟩
  unfold blockedChoices
  dsimp only
  rw [ran]
  simp only [owners]
  rfl

end

/-- **Teams without members in common act independently** when no choice is blocked: together they may do what each may do and force what
each forces, so that no state lets one force a target and the other the states outside it. -/
theorem teams_choose_freely {d : Description} (built : d.build = .ok sys) {names more all : List String} (found : sys.team names = .ok t)
    (foundToo : sys.team more = .ok u) (whole : sys.team all = .ok v) (disjoint : ∀ name ∈ names, name ∉ more)
    (union : ∀ name, name ∈ all ↔ name ∈ names ∨ name ∈ more) (apart : KeyedApart teams) (singles : ∀ a ∈ sys.agents, teams ⟨[a]⟩)
    (known : teams t) (knownToo : teams u) (knownWhole : teams v) {memory later : Recall} (tells : memory.Tells sys teams)
    {blocked : Region} (asked : sys.blockedChoices memory = .ok (blocked, later)) (none : blocked.isEmpty = true) :
    later.Tells sys teams ∧ ∃ first second : Region, Recall.Answers sys teams names first ∧ Recall.Answers sys teams more second ∧
      Recall.Answers sys teams all (first.inter second) ∧
      (∀ left right : Region, sys.StateSet left → sys.StateSet right →
        ((sys.forcingStates t first left .univ).inter (sys.forcingStates u second right .univ)).members ⊆
          (sys.forcingStates v (first.inter second) (left.inter right) .univ).members) ∧
      ∀ target : Region, sys.StateSet target →
        ((sys.forcingStates t first target .univ).inter (sys.forcingStates u second (sys.statesOutside target) .univ)).isEmpty = true := by
  have wf := d.build_well_formed _ built
  have owned := d.build_owned _ built
  obtain ⟨named, agents, _⟩ := d.build_named _ built
  have distinct : (sys.agents.map (·.name)).Nodup := by
    rw [agents]
    exact (List.nodup_append.mp (List.nodup_append.mp named.distinct).1).2.1
  obtain ⟨of, _⟩ := team_spec found
  obtain ⟨ofToo, _⟩ := team_spec foundToo
  obtain ⟨ofWhole, _⟩ := team_spec whole
  have members : ∀ a, a ∈ v.members ↔ a ∈ t.members ∨ a ∈ u.members := fun a => by
    rw [mem_team distinct whole, mem_team distinct found, mem_team distinct foundToo, union, and_or_left]
  have separate : ∀ a ∈ t.members, a ∉ u.members := fun a member memberToo =>
    disjoint a.name ((mem_team distinct found).mp member).2 ((mem_team distinct foundToo).mp memberToo).2
  obtain ⟨after, ran, keeps⟩ := blocked_choices_asked distinct apart singles tells
  obtain ⟨rfl, rfl⟩ := Prod.mk.inj (Except.ok.inj (ran.symm.trans asked))
  have free := wf.chosen_freely none
  have protocols := protocol_of_union free wf owned of ofToo ofWhole separate members
  have forces : ∀ left right : Region, sys.StateSet left → sys.StateSet right →
      ((sys.forcingStates t (sys.protocolOf t) left .univ).inter (sys.forcingStates u (sys.protocolOf u) right .univ)).members ⊆
        (sys.forcingStates v ((sys.protocolOf t).inter (sys.protocolOf u)) (left.inter right) .univ).members := fun left right here there =>
    protocols ▸ forcing_of_union free wf owned of ofToo ofWhole separate members here there
  refine ⟨keeps, sys.protocolOf t, sys.protocolOf u, Recall.answers apart known found, Recall.answers apart knownToo foundToo,
    protocols ▸ Recall.answers apart knownWhole whole, forces, fun target here => ?_⟩
  have outside : sys.StateSet (sys.statesOutside target) := Frame.StateSet.outside here.reads
  have both : sys.StateSet (target.inter (sys.statesOutside target)) :=
    ⟨(Region.inter_subset_left _ _).trans here.inside, here.reads.inter outside.reads⟩
  have nowhere : (target.inter (sys.statesOutside target)).members = ∅ := by
    rw [Region.members_inter, Frame.statesOutside, Region.members_diff]
    exact Set.inter_sdiff_self _ _
  have none := wf.forces_something ofWhole both nowhere
  rw [Region.is_empty_members]
  exact Set.subset_empty_iff.mp ((forces target _ here outside).trans (protocols ▸ none).subset)

theorem lantern_asked : ∃ (sys : System) (t u v : Team) (blocked : Region) (later : Recall), lantern.build = .ok sys ∧
    sys.team ["hand"] = .ok t ∧ sys.team ["foot"] = .ok u ∧ sys.team ["foot", "hand"] = .ok v ∧
    sys.blockedChoices {} = .ok (blocked, later) ∧ blocked.isEmpty = true := by
  have works : (do
      let sys ← lantern.build
      let _ ← sys.team ["hand"]
      let _ ← sys.team ["foot"]
      let _ ← sys.team ["foot", "hand"]
      let asked ← sys.blockedChoices {}
      return asked.1.isEmpty).toOption = some true := by decide +kernel
  obtain ⟨sys, built, rest⟩ := ok_of_bind (ok_of_to_option works)
  obtain ⟨t, found, rest⟩ := ok_of_bind rest
  obtain ⟨u, foundToo, rest⟩ := ok_of_bind rest
  obtain ⟨v, whole, rest⟩ := ok_of_bind rest
  obtain ⟨⟨blocked, later⟩, asked, rest⟩ := ok_of_bind rest
  exact ⟨sys, t, u, v, blocked, later, built, found, foundToo, whole, asked, Except.ok.inj rest⟩

theorem teams_choose_freely_lantern : ∃ (sys : System) (t u v : Team) (blocked : Region) (later : Recall), lantern.build = .ok sys ∧
    sys.team ["hand"] = .ok t ∧ sys.team ["foot"] = .ok u ∧ sys.team ["foot", "hand"] = .ok v ∧
    sys.blockedChoices {} = .ok (blocked, later) ∧ blocked.isEmpty = true ∧ later.Tells sys (·.Of sys) ∧
    ∃ first second : Region, Recall.Answers sys (·.Of sys) ["hand"] first ∧ Recall.Answers sys (·.Of sys) ["foot"] second ∧
      Recall.Answers sys (·.Of sys) ["foot", "hand"] (first.inter second) ∧
      (∀ left right : Region, sys.StateSet left → sys.StateSet right →
        ((sys.forcingStates t first left .univ).inter (sys.forcingStates u second right .univ)).members ⊆
          (sys.forcingStates v (first.inter second) (left.inter right) .univ).members) ∧
      ∀ target : Region, sys.StateSet target →
        ((sys.forcingStates t first target .univ).inter (sys.forcingStates u second (sys.statesOutside target) .univ)).isEmpty = true := by
  obtain ⟨sys, t, u, v, blocked, later, built, found, foundToo, whole, asked, none⟩ := lantern_asked
  obtain ⟨named, agents, _⟩ := lantern.build_named _ built
  have names : sys.agents.map (·.name) = ["hand", "foot"] := agents
  have plain : ∀ a ∈ sys.agents, ',' ∉ a.name.toList := fun a known =>
    (by decide : ∀ name ∈ ["hand", "foot"], ',' ∉ name.toList) a.name (names ▸ List.mem_map_of_mem known)
  have apart := plain_teams_apart (lantern.build_well_formed _ built) (names ▸ by decide) plain
  refine ⟨sys, t, u, v, blocked, later, built, found, foundToo, whole, asked, none, ?_⟩
  exact teams_choose_freely built found foundToo whole (by decide) (by simp [or_comm]) apart (fun a known => single_agent_of known)
    (team_spec found).1 (team_spec foundToo).1 (team_spec whole).1 (Recall.empty_tells sys _) asked none

end System

end Coalition
