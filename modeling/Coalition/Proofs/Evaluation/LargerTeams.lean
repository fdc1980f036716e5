import Coalition.Proofs.Evaluation.FullObservation
import Coalition.Proofs.Model.Names

-- Teams with more members that see the whole state can force more, and less is unavoidable to them.

set_option autoImplicit false

namespace Coalition

namespace Arena

theorem permits_antitone {α : Type} {a b : Arena α} {left right : Set α} (le : Le a b) (top : a.top = b.top) (kind : GoalKind)
    (leftLe : left ⊆ a.top) (rightLe : right ⊆ a.top) : b.permits kind left right ⊆ a.permits kind left right := by
  have strong := permits_until_dual leftLe rightLe
  have strongToo := permits_until_dual (top ▸ leftLe : left ⊆ b.top) (top ▸ rightLe)
  cases kind with
  | next =>
      show b.permitNext right ⊆ a.permitNext right
      rw [permit_next_dual, permit_next_dual, top]
      exact Set.sdiff_subset_sdiff_right (wins_mono le .next ∅ _)
  | strong =>
      rw [strong.1, strongToo.1, top]
      exact Set.sdiff_subset_sdiff_right (wins_mono le .weak _ _)
  | weak =>
      rw [strong.2, strongToo.2, top]
      exact Set.sdiff_subset_sdiff_right (wins_mono le .strong _ _)

end Arena

namespace Team

variable {t u : Team}

theorem action_bits_subset (included : t.members ⊆ u.members) : t.actionBits ⊆ u.actionBits := by
  intro b bit
  obtain ⟨v, acts, own⟩ := List.mem_flatMap.mp bit
  obtain ⟨a, member, action⟩ := List.mem_flatMap.mp acts
  exact List.mem_flatMap.mpr ⟨v, List.mem_flatMap.mpr ⟨a, included member, action⟩, own⟩

end Team

namespace System

variable {sys : System} {t u : Team}

-- A team forces what some of its members force: what completes one of their moves is a move of the team.
theorem state_arena_le (wf : sys.WellFormed) (of : t.Of sys) (ofToo : u.Of sys) (included : t.members ⊆ u.members) :
    Arena.Le (sys.stateArena t) (sys.stateArena u) := by
  refine ⟨Set.Subset.refl _, fun X s => ?_, rfl⟩
  rintro ⟨here, ρ, ⟨inside, forced⟩, state⟩
  obtain ⟨_, τ, trans, reached, same, plays⟩ := (wf.mem_protocol of).mp inside
  have completed : τ ∈ (sys.protocolOf u).members :=
    (wf.mem_protocol ofToo).mpr ⟨wf.trans_inputs trans, τ, trans, reached, rfl, .refl u τ⟩
  refine ⟨here, τ, ⟨completed, fun ν next sameToo playsToo => ?_⟩, same.trans state⟩
  have fewer : t.Plays ν τ := fun b bit => playsToo b (Team.action_bits_subset included bit)
  exact forced ν next (sameToo.trans same) (fewer.trans plays)

theorem team_of_in_order {names : List String} (found : sys.teamOf names = .ok t) : InOrder t.names := by
  obtain ⟨sorted, listed, known⟩ := ok_of_bind found
  obtain ⟨parts, _, same⟩ := ok_of_bind listed
  cases same
  rw [(team_spec known).2]
  exact sort_distinct_in_order _

theorem team_key_length {names : List String} (some : names ≠ []) :
    (teamKey names).length + 1 = (names.map fun name => name.length + 1).sum := by
  unfold teamKey
  induction names with
  | nil => exact absurd rfl some
  | cons x rest ih =>
      cases rest with
      | nil => simp [String.intercalate_singleton]
      | cons y more =>
          have tail := ih (List.cons_ne_nil y more)
          rw [List.map_cons, List.sum_cons, ← tail, String.intercalate_cons_cons]
          simp only [String.length_append]
          have comma : (",").length = 1 := rfl
          omega

theorem key_of_more {xs ys extra : List String} (named : ∀ e ∈ extra, e ≠ "") (whole : ys.Perm (xs ++ extra)) (same : teamKey xs = teamKey ys) :
    extra = [] := by
  cases extra with
  | nil => rfl
  | cons e more =>
      have some : ys ≠ [] := List.ne_nil_of_mem (whole.mem_iff.mpr (List.mem_append_right _ List.mem_cons_self))
      have long := team_key_length some
      rw [← same, (whole.map _).sum_eq, List.map_append, List.sum_append, List.map_cons, List.sum_cons] at long
      rcases eq_or_ne xs [] with rfl | someToo
      · have blank : (teamKey []).length = 0 := rfl
        have positive : 0 < e.length := Nat.pos_of_ne_zero fun zero => named e List.mem_cons_self (String.length_eq_zero_iff.mp zero)
        omega
      · have short := team_key_length someToo
        omega

theorem included_apart (wf : sys.WellFormed) {names more : List String} (small : sys.teamOf names = .ok t) (large : sys.teamOf more = .ok u)
    (included : t.members ⊆ u.members) : KeyedApart fun w => w = t ∨ w = u := by
  obtain ⟨_, own⟩ := sys.team_of_spec names t small
  obtain ⟨of, ownToo⟩ := sys.team_of_spec more u large
  have same : t.key = u.key → t = u := by
    intro key
    obtain ⟨distinct, sorted⟩ := team_of_in_order small
    obtain ⟨_, sortedToo⟩ := team_of_in_order large
    obtain ⟨part, perm, sublist⟩ := List.subperm_of_subset distinct (List.map_subset _ included : t.names ⊆ u.names)
    obtain ⟨extra, whole⟩ := sublist.exists_perm_append
    have split : u.names.Perm (t.names ++ extra) := whole.trans (perm.append_right extra)
    have named : ∀ e ∈ extra, e ≠ "" := by
      intro e listed
      obtain ⟨a, member, rfl⟩ := List.mem_map.mp (split.mem_iff.mpr (List.mem_append_right _ listed))
      exact (wf.agents a (of a member)).named
    rw [key_of_more named split key, List.append_nil] at split
    have agents : u.names = t.names := split.eq_of_pairwise (fun _ _ _ _ => String.le_antisymm) sortedToo sorted
    rw [agents, own] at ownToo
    exact Except.ok.inj ownToo
  rintro v w (rfl | rfl) (rfl | rfl) key
  · rfl
  · exact same key
  · exact (same key.symm).symm
  · rfl

end System

def lantern : Description where
  name := "lantern"
  vars := [⟨"on", ["no", "yes"]⟩]
  inputs := [⟨"press", ["no", "yes"]⟩, ⟨"hold", ["no", "yes"]⟩, ⟨"wind", ["no", "yes"]⟩]
  init := ["on = no"]
  trans := ["next(on) = yes <-> press = yes & hold = yes & wind = no"]
  agents := [{ name := "hand", observes := ["on"], actions := ["press"] }, { name := "foot", actions := ["hold"] }]

namespace Evaluator

variable {ev : Evaluator} {t u : Team}

def SettledBeside (ev : Evaluator) (t u : Team) (ability : Ability) (goal : Goal) (r : Region) : Prop :=
  ∀ formula (m : Memory), m.Owns ev.sys t → m.Owns ev.sys u →
    ∃ n, (ev.fullObservation ⟨formula, ability, t, goal⟩).run m = (.ok r, n) ∧ n.Owns ev.sys t ∧ n.Owns ev.sys u

theorem exists_settled_beside (wf : ev.sys.WellFormed) (named : ev.sys.team t.names = .ok t) (apart : KeyedApart fun w => w = t ∨ w = u)
    (ability : Ability) {goal : Goal} (left : ev.sys.StateSet goal.left) (right : ev.sys.StateSet goal.right) :
    ∃ r, r.members = (ev.sys.stateArena t).settles ability goal.kind goal.left.members goal.right.members ∧
      ev.SettledBeside t u ability goal r := by
  obtain ⟨r, ⟨_, members⟩, serves⟩ := full_observation_serves ev wf named ability left right
  refine ⟨r, members, fun formula m owns ownsToo => ?_⟩
  obtain ⟨_, n, ran, rfl, kept, _⟩ := serves _ m formula apart (.inl rfl) (by rintro w (rfl | rfl) <;> assumption)
  exact ⟨n, ran, kept t (.inl rfl), kept u (.inr rfl)⟩

/-- A team that sees the whole state can force whatever some of its members can force, and what it cannot avoid they cannot avoid,
whatever was computed before for the one or the other. -/
theorem larger_team_forces {d : Description} (built : d.build = .ok ev.sys) {names more : List String}
    (small : ev.sys.teamOf names = .ok t) (large : ev.sys.teamOf more = .ok u) (included : t.members ⊆ u.members) {goal : Goal}
    (left : ev.sys.StateSet goal.left) (right : ev.sys.StateSet goal.right) :
    (∃ r s, ev.SettledBeside t u .canForce goal r ∧ ev.SettledBeside u t .canForce goal s ∧ r.members ⊆ s.members) ∧
      ∃ r s, ev.SettledBeside t u .cannotAvoid goal r ∧ ev.SettledBeside u t .cannotAvoid goal s ∧ s.members ⊆ r.members := by
  have wf := d.build_well_formed _ built
  obtain ⟨of, own⟩ := ev.sys.team_of_spec names t small
  obtain ⟨ofToo, ownToo⟩ := ev.sys.team_of_spec more u large
  have apart := System.included_apart wf small large included
  have apartToo : KeyedApart fun w => w = u ∨ w = t := by simpa only [or_comm] using apart
  have le := System.state_arena_le wf of ofToo included
  constructor
  · obtain ⟨r, members, settled⟩ := exists_settled_beside wf own apart .canForce left right
    obtain ⟨s, membersToo, settledToo⟩ := exists_settled_beside wf ownToo apartToo .canForce left right
    refine ⟨r, s, settled, settledToo, ?_⟩
    rw [members, membersToo]
    exact Arena.wins_mono le goal.kind _ _
  · obtain ⟨r, members, settled⟩ := exists_settled_beside wf own apart .cannotAvoid left right
    obtain ⟨s, membersToo, settledToo⟩ := exists_settled_beside wf ownToo apartToo .cannotAvoid left right
    refine ⟨r, s, settled, settledToo, ?_⟩
    rw [members, membersToo]
    exact Arena.permits_antitone le rfl goal.kind left.inside right.inside

theorem lantern_teams : ∃ sys t u, lantern.build = .ok sys ∧ sys.teamOf ["hand"] = .ok t ∧ sys.teamOf ["foot", "hand"] = .ok u ∧
    t.names = ["hand"] := by
  have works : (do
      let sys ← lantern.build
      let t ← sys.teamOf ["hand"]
      return t.names).toOption = some ["hand"] := by decide +kernel
  obtain ⟨sys, built, rest⟩ := ok_of_bind (ok_of_to_option works)
  obtain ⟨t, small, rest⟩ := ok_of_bind rest
  obtain ⟨u, large⟩ := (System.team_of_iff built ["foot", "hand"]).mpr (by decide)
  exact ⟨sys, t, u, built, small, large, Except.ok.inj rest⟩

theorem larger_team_forces_lantern : ∃ (ev : Evaluator) (t u : Team), lantern.build = .ok ev.sys ∧ ev.sys.teamOf ["hand"] = .ok t ∧
    ev.sys.teamOf ["foot", "hand"] = .ok u ∧ t.members ≠ [] ∧ t.members ⊆ u.members ∧
    (∃ r s, ev.SettledBeside t u .canForce ⟨.strong, ev.sys.reachable, ev.sys.init⟩ r ∧
      ev.SettledBeside u t .canForce ⟨.strong, ev.sys.reachable, ev.sys.init⟩ s ∧ r.members ⊆ s.members) ∧
    ∃ r s, ev.SettledBeside t u .cannotAvoid ⟨.strong, ev.sys.reachable, ev.sys.init⟩ r ∧
      ev.SettledBeside u t .cannotAvoid ⟨.strong, ev.sys.reachable, ev.sys.init⟩ s ∧ s.members ⊆ r.members := by
  obtain ⟨sys, t, u, built, small, large, hand⟩ := lantern_teams
  have wf := lantern.build_well_formed sys built
  have someone : t.members ≠ [] := fun none => by simp [Team.names, none] at hand
  have agents : sys.agents.map (·.name) = ["hand", "foot"] := (lantern.build_named _ built).2.1
  have both := System.mem_team_of large (agents ▸ by decide : "hand" ∈ sys.agents.map (·.name)) (by decide)
  have included : t.members ⊆ u.members := System.members_subset (sys.team_of_spec _ t small).2 (sys.team_of_spec _ u large).2
    (hand ▸ List.cons_subset.mpr ⟨both, List.nil_subset _⟩)
  exact ⟨⟨sys, {}, false⟩, t, u, built, small, large, someone, included,
    larger_team_forces built small large included wf.reachable_state_set wf.init⟩

end Evaluator

end Coalition
