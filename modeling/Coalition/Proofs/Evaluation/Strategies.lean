import Coalition.Proofs.Evaluation.Winnable
import Coalition.Proofs.Strategy.Uniform

-- Splitting and filtering decides where a uniform policy exists whose plays achieve the goal from all states that look the same.

set_option autoImplicit false

namespace Coalition

namespace System

-- Following the policy, the viewers know in the state that the goal is achieved.
def Secures (sys : System) (semantics : Semantics) (t : Team) (goal : Goal) (α : Policy) (s : Valuation) : Prop :=
  (sys.playGraph semantics t α).Achieves goal.kind goal.left.members goal.right.members s ∧
    ∀ w ∈ t.viewers semantics, ∀ u, sys.Reachable u → w.Same s u →
      (sys.playGraph semantics t α).Achieves goal.kind goal.left.members goal.right.members u

variable {sys : System} {semantics : Semantics} {t : Team} {goal : Goal} {α : Policy} {s : Valuation}

section

variable (wf : sys.WellFormed) (of : t.Of sys) (left : sys.StateSet goal.left) (right : sys.StateSet goal.right)

include wf of left right

theorem sure_following : sys.Sure semantics t (sys.won t (sys.protocolOf t) goal (sys.following semantics t α)) s ↔
    sys.Secures semantics t goal α s := by
  have here : ∀ u, (∃ ρ ∈ sys.won t (sys.protocolOf t) goal (sys.following semantics t α), sys.stateOf ρ = u) ↔
      (sys.playGraph semantics t α).Achieves goal.kind goal.left.members goal.right.members u := by
    intro u
    rw [won, wf.wins_following of goal.kind left.reads right.reads]
    constructor
    · rintro ⟨ρ, ⟨_, achieves⟩, rfl⟩
      exact achieves
    · intro achieves
      obtain ⟨ρ, follows, rfl⟩ := (wf.mem_alive of).mp achieves.1
      exact ⟨ρ, ⟨follows, achieves⟩, rfl⟩
  unfold Sure Secures
  simp only [here]

theorem winnable_secures :
    sys.Winnable semantics t (sys.protocolOf t) goal (sys.protocolOf t).members s ↔
      ∃ α, sys.Uniform semantics t α ∧ sys.Secures semantics t goal α s := by
  constructor
  · rintro ⟨U, inside, agreeing, sure⟩
    obtain ⟨α, uniform, le⟩ := wf.exists_policy of agreeing inside
    exact ⟨α, uniform, (sure_following wf of left right).mp (sure.mono (won_mono le))⟩
  · rintro ⟨α, uniform, secures⟩
    exact ⟨_, fun _ member => member.1, wf.following_agrees of uniform, (sure_following wf of left right).mpr secures⟩

end

end System

def lamp : Description where
  name := "lamp"
  vars := [⟨"on", ["no", "yes"]⟩]
  inputs := [⟨"press", ["no", "yes"]⟩]
  init := ["on = no"]
  trans := ["next(on) = yes <-> press = yes"]
  agents := [{ name := "hand", observes := ["on"], actions := ["press"] }]

theorem lamp_builds : ∃ sys t, lamp.build = .ok sys ∧ sys.team ["hand"] = .ok t := by
  have works : (do
      let sys ← lamp.build
      let t ← sys.team ["hand"]
      return t.names).toOption = some ["hand"] := by decide +kernel
  obtain ⟨sys, built, rest⟩ := ok_of_bind (ok_of_to_option works)
  obtain ⟨t, coalition, _⟩ := ok_of_bind rest
  exact ⟨sys, t, built, coalition⟩

namespace Evaluator

/-- Splitting the protocol and filtering each strategy ends in the states where some uniform policy secures the goal. -/
theorem split_filter_decides {d : Description} {ev : Evaluator} (built : d.build = .ok ev.sys) {names : List String} {t : Team}
    (coalition : ev.sys.team names = .ok t) {goal : Goal} (left : ev.sys.StateSet goal.left) (right : ev.sys.StateSet goal.right)
    {m : Memory} (faithful : m.Faithful ev.sys t) :
    ∃ r n, (ev.splitFilter t goal).run m = (.ok r, n) ∧ ∀ s, ev.sys.Reachable s →
      (s ∈ r.members ↔ ∃ α, ev.sys.Uniform ev.options.semantics t α ∧ ev.sys.Secures ev.options.semantics t goal α s) := by
  have wf := d.build_well_formed _ built
  obtain ⟨of, same⟩ := System.team_spec coalition
  have own := faithful.protocol_for
  have posed : ev.Posed t (m.protocolFor ev.sys t) goal := ⟨wf, of, own.symm ▸ wf.protocol_played of, left, right⟩
  obtain ⟨r, n, ran, wins, _⟩ := split_filter_solves (same.symm ▸ coalition) posed
  refine ⟨r, n, ran, fun s reached => ?_⟩
  rw [wins s, own, wf.reachable_state reached]
  exact System.winnable_secures wf of left right

theorem split_filter_decides_lamp : ∃ (ev : Evaluator) (t : Team), lamp.build = .ok ev.sys ∧ ev.sys.team ["hand"] = .ok t ∧
    ∃ r n, (ev.splitFilter t ⟨.strong, ev.sys.init, ev.sys.reachable⟩).run {} = (.ok r, n) ∧ ∀ s, ev.sys.Reachable s →
      (s ∈ r.members ↔ ∃ α, ev.sys.Uniform ev.options.semantics t α ∧
        ev.sys.Secures ev.options.semantics t ⟨.strong, ev.sys.init, ev.sys.reachable⟩ α s) := by
  obtain ⟨sys, t, built, coalition⟩ := lamp_builds
  have wf := lamp.build_well_formed sys built
  exact ⟨⟨sys, {}, false⟩, t, built, coalition, split_filter_decides built coalition wf.init wf.reachable_state_set
    (Memory.empty_faithful sys t)⟩

end Evaluator

end Coalition
