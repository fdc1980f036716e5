import Coalition.Proofs.Evaluation.FullObservation
import Coalition.Proofs.Game.Continuation

-- What a coalition knows decides what it can force: more information wins more.

set_option autoImplicit false

namespace Coalition

namespace Team

variable {t w : Team} {s u : Valuation}

-- The members together observe every variable of the state.
def SeesAll (t : Team) (sys : System) : Prop := ∀ v ∈ sys.stateVars, ∃ a ∈ t.members, v ∈ a.observed

instance (t : Team) (sys : System) : Decidable (t.SeesAll sys) :=
  inferInstanceAs (Decidable (∀ v ∈ sys.stateVars, ∃ a ∈ t.members, v ∈ a.observed))

theorem Same.single (same : t.Same s u) (member : w ∈ t.singles) : w.Same s u := by
  obtain ⟨a, listed, rfl⟩ := List.mem_map.mp member
  intro b only
  rw [List.mem_singleton.mp only]
  exact same a listed

theorem agreeing_together {U : Set Valuation} (agreeing : Agreeing (t.viewers .individual) U) : Agreeing (t.viewers .group) U := by
  intro w viewer ρ here σ there same
  obtain rfl := List.mem_singleton.mp viewer
  exact (plays_iff .individual).mpr fun w member => agreeing w member ρ here σ there (same.single member)

end Team

namespace System

variable {sys : System} {t : Team} {goal : Goal} {W : Set Valuation} {s : Valuation}

theorem Sure.together (some : t.members ≠ []) (sure : sys.Sure .individual t W s) : sys.Sure .group t W s := by
  obtain ⟨a, member⟩ := List.exists_mem_of_ne_nil _ some
  refine ⟨sure.1, fun w viewer u reached same => ?_⟩
  obtain rfl := List.mem_singleton.mp viewer
  exact sure.2 ⟨[a]⟩ (List.mem_map_of_mem member) u reached (same.single (List.mem_map_of_mem member))

theorem Winnable.together {protocol : Region} (some : t.members ≠ []) (winnable : sys.Winnable .individual t protocol goal W s) :
    sys.Winnable .group t protocol goal W s := by
  obtain ⟨U, inside, agreeing, sure⟩ := winnable
  exact ⟨U, inside, Team.agreeing_together agreeing, sure.together some⟩

-- Where some transition leads on from every reachable state, a policy that ends nowhere does as another one does where that one can be
-- followed.
theorem exists_lasting_policy (t : Team) (lively : sys.Lively) (α : Policy) : ∃ β : Policy,
    (sys.playGraph .group t β).Continues (sys.playGraph .group t α) ∧ ∀ s, sys.Reachable s → s ∈ (sys.playGraph .group t β).alive := by
  classical
  have leads : ∀ s, ∃ τ, sys.Reachable s → τ ∈ sys.trans.members ∧ sys.stateOf τ = s := by
    intro s
    by_cases reached : sys.Reachable s
    · obtain ⟨_, τ, trans, here, _⟩ := lively s reached
      exact ⟨τ, fun _ => ⟨trans, here⟩⟩
    · exact ⟨s, fun known => absurd known reached⟩
  -- where the policy cannot be followed, do as some transition does
  choose lead spec using leads
  let β : Policy := fun w s => if s ∈ (sys.playGraph .group t α).alive then α w s else lead s
  have same : ∀ τ, sys.stateOf τ ∈ (sys.playGraph .group t α).alive → (sys.Follows .group t β τ ↔ sys.Follows .group t α τ) := by
    intro τ here
    rw [follows_group, follows_group]
    simp only [β, if_pos here]
  have kept : (sys.playGraph .group t α).alive ⊆ (sys.playGraph .group t β).alive := by
    intro s here
    obtain ⟨reached, τ, trans, rfl, follows⟩ := here
    exact ⟨reached, τ, trans, rfl, (same τ ⟨reached, τ, trans, rfl, follows⟩).mpr follows⟩
  refine ⟨β, ⟨kept, fun s here u step => ?_, rfl⟩, fun s reached => ?_⟩
  · obtain ⟨τ, trans, rfl, follows, next⟩ := step
    exact ⟨τ, trans, rfl, (same τ here).mp follows, next⟩
  · by_cases here : s ∈ (sys.playGraph .group t α).alive
    · exact kept here
    · obtain ⟨trans, state⟩ := spec s reached
      refine ⟨reached, lead s, trans, state, follows_group.mpr ?_⟩
      simp only [β, state, if_neg here]
      exact .refl t _

theorem reachable_of_play {semantics : Semantics} {α : Policy} {path : Nat → Valuation} (play : (sys.playGraph semantics t α).Play path)
    (reached : sys.Reachable (path 0)) (i : Nat) : sys.Reachable (path i) := by
  induction i with
  | zero => exact reached
  | succ i ih =>
      obtain ⟨_, τ, trans, here, _, next⟩ | ⟨_, same⟩ := play i
      · exact next ▸ Reachable.next (here.symm ▸ ih) trans
      · exact same.symm ▸ ih

namespace WellFormed

variable (wf : sys.WellFormed)

include wf

theorem eq_of_same (sees : t.SeesAll sys) {s u : Valuation} (reached : sys.Reachable s) (reachedToo : sys.Reachable u)
    (same : t.Same s u) : s = u := by
  rw [← wf.reachable_state reached, ← wf.reachable_state reachedToo]
  refine Frame.state_of_eq_iff.mpr fun b state => ?_
  obtain ⟨v, listed, bit⟩ := List.mem_flatMap.mp state
  obtain ⟨a, member, seen⟩ := sees v listed
  exact same a member v seen b bit

theorem secures_of_forces (lively : sys.Lively) (sees : t.SeesAll sys) {α : Policy} (reached : sys.Reachable s)
    (forces : (sys.playGraph .group t α).Forces goal.kind goal.left.members goal.right.members s) :
    ∃ β, sys.Uniform .group t β ∧ sys.Secures .group t goal β s := by
  obtain ⟨β, continues, lasting⟩ := exists_lasting_policy t lively α
  have achieves := (continues.forces forces).achieves fun path play start i => lasting _ (reachable_of_play play (start ▸ reached) i)
  refine ⟨β, fun w viewer s u reached reachedToo same => ?_, achieves, fun w viewer u reachedToo same => ?_⟩
  · -- no two states look the same, so that any policy is uniform
    obtain rfl := List.mem_singleton.mp viewer
    rw [wf.eq_of_same sees reached reachedToo same]
    exact .refl w _
  · obtain rfl := List.mem_singleton.mp viewer
    exact wf.eq_of_same sees reached reachedToo same ▸ achieves

end WellFormed

end System

def darkLamp : Description := { busyLamp with
  agents := [{ name := "eye", observes := ["on"], actions := [] }, { name := "hand", observes := [], actions := ["press"] }] }

theorem dark_lamp_builds : ∃ sys t, darkLamp.build = .ok sys ∧ sys.team ["eye", "hand"] = .ok t ∧ sys.Lively ∧ t.SeesAll sys := by
  have works : (do
      let sys ← darkLamp.build
      let t ← sys.team ["eye", "hand"]
      return sys.reachable.subset (sys.trans.hide (sys.nextBits ++ sys.inputBits)) && decide (t.SeesAll sys)).toOption = some true := by
    decide +kernel
  obtain ⟨sys, built, rest⟩ := ok_of_bind (ok_of_to_option works)
  obtain ⟨t, coalition, rest⟩ := ok_of_bind rest
  obtain ⟨inside, sees⟩ := (Bool.and_eq_true _ _).mp (Except.ok.inj rest)
  exact ⟨sys, t, built, coalition, (darkLamp.build_well_formed sys built).lively inside, of_decide_eq_true sees⟩

namespace Evaluator

def sharing (ev : Evaluator) (semantics : Semantics) : Evaluator := { ev with options := { ev.options with semantics := semantics } }

def Splits (ev : Evaluator) (t : Team) (goal : Goal) (r : Region) : Prop :=
  ∀ m : Memory, m.Faithful ev.sys t → ∃ n, (ev.splitFilter t goal).run m = (.ok r, n)

variable {ev : Evaluator} {names : List String} {t : Team} {goal : Goal}

theorem exists_splits (wf : ev.sys.WellFormed) (coalition : ev.sys.team names = .ok t) (left : ev.sys.StateSet goal.left)
    (right : ev.sys.StateSet goal.right) (semantics : Semantics) : ∃ r, (ev.sharing semantics).Splits t goal r ∧
      ∀ ρ, ρ ∈ r.members ↔ ev.sys.Winnable semantics t (ev.sys.protocolOf t) goal (ev.sys.protocolOf t).members (ev.sys.stateOf ρ) := by
  obtain ⟨of, same⟩ := System.team_spec coalition
  have solved : ∀ m : Memory, m.Faithful ev.sys t → ∃ r n, ((ev.sharing semantics).splitFilter t goal).run m = (.ok r, n) ∧
      (ev.sharing semantics).Wins t (ev.sys.protocolOf t) goal (ev.sys.protocolOf t).members r := by
    intro m faithful
    have own : m.protocolFor (ev.sharing semantics).sys t = ev.sys.protocolOf t := faithful.protocol_for
    have posed : (ev.sharing semantics).Posed t (m.protocolFor (ev.sharing semantics).sys t) goal :=
      ⟨wf, of, own.symm ▸ wf.protocol_played of, left, right⟩
    obtain ⟨r, n, ran, wins, _⟩ := split_filter_solves (same.symm ▸ coalition) posed
    exact ⟨r, n, ran, own ▸ wins⟩
  -- the region is the one that is won, so it does not depend on the memory
  obtain ⟨r, _, _, wins⟩ := solved {} (Memory.empty_faithful ev.sys t)
  refine ⟨r, fun m faithful => ?_, wins⟩
  obtain ⟨s, n, ran, winsToo⟩ := solved m faithful
  exact ⟨n, winsToo.unique wins ▸ ran⟩

theorem exists_forced (wf : ev.sys.WellFormed) (coalition : ev.sys.team names = .ok t) (left : ev.sys.StateSet goal.left)
    (right : ev.sys.StateSet goal.right) : ∃ r, ev.Settled t .canForce goal r ∧ ∀ ρ, ev.sys.Reachable (ev.sys.stateOf ρ) →
      (ρ ∈ r.members ↔ ∃ α : Policy,
        (ev.sys.playGraph .group t α).Forces goal.kind goal.left.members goal.right.members (ev.sys.stateOf ρ)) := by
  obtain ⟨of, same⟩ := System.team_spec coalition
  obtain ⟨r, ⟨known, members⟩, settled⟩ := exists_settled_set ev wf (same.symm ▸ coalition) .canForce left right
  refine ⟨r, settled, fun ρ reached => ?_⟩
  rw [← Frame.mem_state_of known.reads, members]
  exact wf.mem_state_wins of goal.kind left.reads right.reads reached

/-- Members that choose on their own win no more than members that share what they see, and those win no more than a team that
sees the whole state. -/
theorem more_information_wins_more {d : Description} (built : d.build = .ok ev.sys) (coalition : ev.sys.team names = .ok t)
    (some : names ≠ []) (left : ev.sys.StateSet goal.left) (right : ev.sys.StateSet goal.right) : ∃ own shared full,
      (ev.sharing .individual).Splits t goal own ∧ (ev.sharing .group).Splits t goal shared ∧ ev.Settled t .canForce goal full ∧
        own.members ⊆ shared.members ∧ shared.members ⊆ full.members := by
  have wf := d.build_well_formed _ built
  obtain ⟨of, same⟩ := System.team_spec coalition
  have members : t.members ≠ [] := fun none => some (by rw [← same, Team.names, none, List.map_nil])
  obtain ⟨own, ownSplits, ownWon⟩ := exists_splits wf coalition left right .individual
  obtain ⟨shared, sharedSplits, sharedWon⟩ := exists_splits wf coalition left right .group
  obtain ⟨full, settled, forced⟩ := exists_forced wf coalition left right
  refine ⟨own, shared, full, ownSplits, sharedSplits, settled, fun ρ won => ?_, fun ρ won => ?_⟩
  · exact (sharedWon ρ).mpr (((ownWon ρ).mp won).together members)
  · obtain ⟨α, _, achieves, _⟩ := (System.winnable_secures wf of left right).mp ((sharedWon ρ).mp won)
    exact (forced ρ achieves.1.1).mpr ⟨α, achieves.forces⟩

theorem more_information_wins_more_dark_lamp : ∃ (ev : Evaluator) (t : Team), darkLamp.build = .ok ev.sys ∧
    ev.sys.team ["eye", "hand"] = .ok t ∧ ["eye", "hand"] ≠ [] ∧ ∃ own shared full,
      (ev.sharing .individual).Splits t ⟨.strong, ev.sys.reachable, ev.sys.init⟩ own ∧
      (ev.sharing .group).Splits t ⟨.strong, ev.sys.reachable, ev.sys.init⟩ shared ∧
      ev.Settled t .canForce ⟨.strong, ev.sys.reachable, ev.sys.init⟩ full ∧
        own.members ⊆ shared.members ∧ shared.members ⊆ full.members := by
  obtain ⟨sys, t, built, coalition, _⟩ := dark_lamp_builds
  have wf := darkLamp.build_well_formed sys built
  exact ⟨⟨sys, {}, false⟩, t, built, coalition, by decide,
    more_information_wins_more built coalition (by decide) wf.reachable_state_set wf.init⟩

/-- A team whose members together observe every variable wins what it would win if it saw the whole state. -/
theorem complete_observation_suffices {d : Description} (built : d.build = .ok ev.sys) (coalition : ev.sys.team names = .ok t)
    (lively : ev.sys.Lively) (sees : t.SeesAll ev.sys) (left : ev.sys.StateSet goal.left) (right : ev.sys.StateSet goal.right) :
    ∃ shared full, (ev.sharing .group).Splits t goal shared ∧ ev.Settled t .canForce goal full ∧
      shared.inter ev.sys.reachable = full.inter ev.sys.reachable := by
  have wf := d.build_well_formed _ built
  obtain ⟨of, _⟩ := System.team_spec coalition
  obtain ⟨shared, splits, won⟩ := exists_splits wf coalition left right .group
  obtain ⟨full, settled, forced⟩ := exists_forced wf coalition left right
  refine ⟨shared, full, splits, settled, Region.members_injective ?_⟩
  rw [Region.members_inter, Region.members_inter]
  refine Set.ext fun ρ => and_congr_left fun here => ?_
  have reached := wf.mem_reachable.mp here
  rw [won, forced ρ reached, System.winnable_secures wf of left right]
  constructor
  · -- what is secured is achieved, so it is forced by the same policy
    rintro ⟨α, _, achieves, _⟩
    exact ⟨α, achieves.forces⟩
  · rintro ⟨α, forces⟩
    exact wf.secures_of_forces lively sees reached forces

theorem complete_observation_suffices_dark_lamp : ∃ (ev : Evaluator) (t : Team), darkLamp.build = .ok ev.sys ∧
    ev.sys.team ["eye", "hand"] = .ok t ∧ ev.sys.Lively ∧ t.SeesAll ev.sys ∧ ∃ shared full,
      (ev.sharing .group).Splits t ⟨.weak, ev.sys.init, .empty⟩ shared ∧ ev.Settled t .canForce ⟨.weak, ev.sys.init, .empty⟩ full ∧
        shared.inter ev.sys.reachable = full.inter ev.sys.reachable := by
  obtain ⟨sys, t, built, coalition, lively, sees⟩ := dark_lamp_builds
  have wf := darkLamp.build_well_formed sys built
  exact ⟨⟨sys, {}, false⟩, t, built, coalition, lively, sees,
    complete_observation_suffices built coalition lively sees wf.init (.empty _)⟩

end Evaluator

end Coalition
