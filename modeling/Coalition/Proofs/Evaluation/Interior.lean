import Coalition.Proofs.Evaluation.Strategies
import Coalition.Proofs.Evaluation.Winnable

-- Filtering is an interior operator on the moves of a team's protocol: the moves that win are some of the given ones, more of them win
-- when more are given, and they win as well when the others are left out.

set_option autoImplicit false

namespace Coalition

namespace Evaluator

variable {ev : Evaluator} {t : Team} {protocol S T : Region} {goal : Goal}

structure MovesIn (ev : Evaluator) (protocol S : Region) : Prop where
  reads : S.Reads ev.sys.moveBit
  inside : S.members ⊆ protocol.members

-- The goal as it counts for moves: only what it holds of well-formed ones.
def masked (ev : Evaluator) (goal : Goal) : Goal := { goal with right := goal.right.inter ev.sys.movesMask }

section

variable (wf : ev.sys.WellFormed) (of : t.Of ev.sys) (played : ev.sys.PlayedSet protocol)

include wf of played

theorem proper_moves (moves : ev.MovesIn protocol S) : MoveGame.Proper ⟨ev.sys, t, protocol, S⟩ :=
  ⟨wf, of, ⟨played.inside, played.reads⟩, moves.reads, moves.inside⟩

theorem filtered_won (leftReads : goal.left.Reads ev.sys.moveBit) (rightReads : goal.right.Reads ev.sys.moveBit)
    (moves : ev.MovesIn protocol S) : (ev.filtered t protocol goal S).Reads ev.sys.moveBit ∧
      (ev.filtered t protocol goal S).members = ev.sys.won t protocol (ev.masked goal) S.members :=
  MoveGame.winning_members (proper_moves wf of played moves) goal leftReads rightReads

theorem filtered_moves (leftReads : goal.left.Reads ev.sys.moveBit) (rightReads : goal.right.Reads ev.sys.moveBit)
    (moves : ev.MovesIn protocol S) : ev.MovesIn protocol (ev.filtered t protocol goal S) := by
  obtain ⟨reads, same⟩ := filtered_won wf of played leftReads rightReads moves
  exact ⟨reads, same ▸ System.won_protocol⟩

theorem unfair_filtered (leftReads : goal.left.Reads ev.sys.moveBit) (rightReads : goal.right.Reads ev.sys.moveBit)
    (moves : ev.MovesIn protocol S) :
    (MoveGame.unfair ⟨ev.sys, t, protocol, S⟩).value.members ⊆ (ev.filtered t protocol goal S).members := by
  rw [(MoveGame.unfair_spec (proper_moves wf of played moves)).2, (filtered_won wf of played leftReads rightReads moves).2]
  exact Arena.unfair_subset_wins _ _ _ _

end

/-- Whatever protocol an evaluation uses for a team, filtering some of its moves for a goal ends, gives some of these moves, gives
more when more are filtered and the same when filtered again; and it keeps the moves that force an unfair path. -/
theorem filtering_interior {d : Description} (built : d.build = .ok ev.sys) {names : List String} (coalition : ev.sys.team names = .ok t)
    {m k : Memory} (sound : m.Sound ev.sys) (asked : (Eval.protocol ev.sys t).run m = (.ok protocol, k)) (goal : Goal)
    (leftReads : goal.left.Reads ev.sys.moveBit) (rightReads : goal.right.Reads ev.sys.moveBit) :
    (∀ S : Region, ∀ n : Memory, ∃ l, (ev.winningMoves t protocol goal S).run n = (.ok (ev.filtered t protocol goal S), l)) ∧
    (∀ S, ev.MovesIn protocol S → ev.MovesIn protocol (ev.filtered t protocol goal S) ∧
      (ev.filtered t protocol goal S).members ⊆ S.members ∧
      ev.filtered t protocol goal (ev.filtered t protocol goal S) = ev.filtered t protocol goal S ∧
      (MoveGame.unfair ⟨ev.sys, t, protocol, S⟩).value.members ⊆ (ev.filtered t protocol goal S).members) ∧
    ∀ S T, ev.MovesIn protocol S → ev.MovesIn protocol T → S.members ⊆ T.members →
      (ev.filtered t protocol goal S).members ⊆ (ev.filtered t protocol goal T).members := by
  have wf := d.build_well_formed _ built
  obtain ⟨of, same⟩ := System.team_spec coalition
  obtain ⟨_, _, ran, rfl, rfl⟩ := Eval.ends_protocol (m := m) (same.symm ▸ coalition)
  obtain rfl : m.protocolFor ev.sys t = protocol := Except.ok.inj (congrArg Prod.fst (ran.symm.trans asked))
  obtain ⟨u, uOf, whose⟩ := sound.protocol_for of
  have played : ev.sys.PlayedSet (m.protocolFor ev.sys t) := whose ▸ wf.protocol_played uOf
  refine ⟨fun S n => ?_, fun S moves => ?_, fun S T first second le => ?_⟩
  · obtain ⟨_, l, ran, rfl, _⟩ := gives_winning_moves (m := n) S
    exact ⟨l, ran⟩
  · obtain ⟨_, once⟩ := filtered_won wf of played leftReads rightReads moves
    have still := filtered_moves wf of played leftReads rightReads moves
    obtain ⟨_, twice⟩ := filtered_won wf of played leftReads rightReads still
    refine ⟨still, once ▸ System.won_subset, Region.members_injective ?_, unfair_filtered wf of played leftReads rightReads moves⟩
    -- both rounds compute their fixpoints anew, so they are compared by the moves that win and not step by step
    rw [twice, once, System.won_won]
  · rw [(filtered_won wf of played leftReads rightReads first).2, (filtered_won wf of played leftReads rightReads second).2]
    exact System.won_mono le

theorem filtering_interior_lamp : ∃ (ev : Evaluator) (t : Team) (k : Memory), lamp.build = .ok ev.sys ∧
    ev.sys.team ["hand"] = .ok t ∧ ({} : Memory).Sound ev.sys ∧
    (Eval.protocol ev.sys t).run {} = (.ok (ev.sys.protocolOf t), k) ∧ ev.MovesIn (ev.sys.protocolOf t) (ev.sys.protocolOf t) ∧
    (ev.filtered t (ev.sys.protocolOf t) ⟨.weak, ev.sys.init, .empty⟩ (ev.sys.protocolOf t)).members ⊆
      (ev.sys.protocolOf t).members ∧
    (ev.filtered t (ev.sys.protocolOf t) ⟨.weak, ev.sys.init, .empty⟩ .empty).members ⊆
      (ev.filtered t (ev.sys.protocolOf t) ⟨.weak, ev.sys.init, .empty⟩ (ev.sys.protocolOf t)).members := by
  obtain ⟨sys, t, built, coalition⟩ := lamp_builds
  have wf := lamp.build_well_formed sys built
  obtain ⟨of, same⟩ := System.team_spec coalition
  have sound := Memory.empty_sound sys
  obtain ⟨_, k, ran, rfl, _⟩ := Eval.ends_protocol (m := {}) (same.symm ▸ coalition)
  have whole : MovesIn ⟨sys, {}, false⟩ (sys.protocolOf t) (sys.protocolOf t) :=
    ⟨(wf.protocol_played of).reads, Set.Subset.refl _⟩
  have interior := @filtering_interior ⟨sys, {}, false⟩ t _ lamp built _ coalition {} k sound ran ⟨.weak, sys.init, .empty⟩
    (wf.init.reads.mono sys.state_subset_move) (Region.reads_empty _)
  have none : MovesIn ⟨sys, {}, false⟩ (sys.protocolOf t) .empty := ⟨Region.reads_empty _, by simp [Region.members_empty]⟩
  refine ⟨⟨sys, {}, false⟩, t, _, built, coalition, sound, ran, whole, (interior.2.1 _ whole).2.1, ?_⟩
  exact interior.2.2 _ _ none whole none.inside

end Evaluator

end Coalition
