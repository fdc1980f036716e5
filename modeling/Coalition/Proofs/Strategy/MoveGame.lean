import Coalition.Proofs.Game.Computed
import Coalition.Proofs.Game.Cover
import Coalition.Proofs.Model.Team
import Coalition.Strategy.MoveGame

-- The moves that win, computed on regions, are the winning positions of the arena of the moves.

set_option autoImplicit false

namespace Coalition

-- The moves of a protocol. A move forces what every transition with its state and the team's action leads to.
def System.arena (sys : System) (t : Team) (protocol : Region) : Arena Valuation where
  top := protocol.members
  force := ⟨fun X => {ρ | ρ ∈ protocol.members ∧
      ∀ τ ∈ sys.trans.members, sys.stateOf τ = sys.stateOf ρ → t.Plays τ ρ → ∃ σ ∈ X, sys.stateOf σ = sys.nextOf τ},
    fun _ _ le _ member => ⟨member.1, fun τ trans same plays =>
      (member.2 τ trans same plays).imp fun _ here => ⟨le here.1, here.2⟩⟩⟩
  constraints := sys.fairness.map (·.members)
  force_top _ _ member := member.1

theorem System.leads_atop {sys : System} (laid : sys.Laid) {W Z X : Set Valuation} {τ : Valuation}
    (lifts : sys.nextOf τ ∈ X → ∃ σ ∈ W, sys.stateOf σ = sys.nextOf τ) :
    (∃ σ ∈ Set.preimage sys.stateOf Z ∪ atop W sys.stateOf X, sys.stateOf σ = sys.nextOf τ) ↔ sys.nextOf τ ∈ Z ∪ X := by
  constructor
  · rintro ⟨σ, goal | there, next⟩
    · exact .inl (next ▸ goal)
    · exact .inr (next ▸ there.2)
  · rintro (goal | there)
    · have itself := Frame.state_of_next laid τ
      refine ⟨sys.nextOf τ, .inl ?_, itself⟩
      rwa [Set.mem_preimage, itself]
    · obtain ⟨σ, here, next⟩ := lifts there
      refine ⟨σ, .inr ⟨here, ?_⟩, next⟩
      rwa [Set.mem_preimage, next]

structure Frame.MoveSet (f : Frame) (s : Region) : Prop where
  inside : s.members ⊆ f.movesMask.members
  reads : s.Reads f.moveBit

namespace MoveGame

structure Proper (g : MoveGame) : Prop where
  system : g.sys.WellFormed
  team : g.team.Of g.sys
  protocol : g.sys.MoveSet g.protocol
  reads : g.moves.Reads g.sys.moveBit
  inside : g.moves.members ⊆ g.protocol.members

def arena (g : MoveGame) : Arena Valuation := (g.sys.arena g.team g.protocol).on g.moves.members

variable {g : MoveGame} {left right : Region}

theorem reads_moves_mask (g : MoveGame) : g.sys.movesMask.Reads g.sys.moveBit :=
  (g.sys.reads_states_mask.mono g.sys.state_subset_move).inter (g.sys.reads_inputs_mask.mono g.sys.input_subset_move)

section

variable (proper : g.Proper)

include proper

theorem moves_masked : g.moves.members ⊆ g.sys.movesMask.members := proper.inside.trans proper.protocol.inside

theorem top_members : g.top.members = g.moves.members := by
  rw [top, Region.members_inter]
  exact Set.inter_eq_self_of_subset_right (moves_masked proper)

theorem arena_top : g.arena.top = g.moves.members := Set.inter_eq_self_of_subset_right proper.inside

theorem reads_top : g.top.Reads g.sys.moveBit := g.reads_moves_mask.inter proper.reads

theorem reads_force {target : Region} (targetReads : target.Reads g.sys.moveBit) : (g.force target).Reads g.sys.moveBit :=
  proper.system.forcing_reads proper.protocol.reads targetReads proper.reads

theorem force_members {target : Region} (reads : target.Reads g.sys.moveBit) :
    (g.force target).members = g.arena.force target.members := by
  ext ρ
  unfold force
  rw [proper.system.mem_forcing_moves proper.team reads, and_left_comm]
  refine and_congr_right fun _ => and_congr_right fun _ => forall₂_congr fun τ _ => ?_
  unfold Frame.HasState
  rw [Frame.state_of_next proper.system.laid]

theorem outside_members (c : Region) : (g.outside c).members = g.arena.top \ c.members := by
  rw [arena_top proper, outside, Frame.statesOutside, Region.members_inter, Region.members_diff, top_members proper]
  ext ρ
  constructor
  · rintro ⟨⟨_, out⟩, played⟩
    exact ⟨played, out⟩
  · rintro ⟨played, out⟩
    have masked := moves_masked proper played
    rw [Frame.movesMask, Region.members_inter] at masked
    exact ⟨⟨masked.1, out⟩, played⟩

theorem reads_outside {c : Region} (listed : c ∈ g.sys.fairness) : (g.outside c).Reads g.sys.moveBit :=
  ((g.sys.reads_states_mask.diff (proper.system.fairness c listed).reads).mono g.sys.state_subset_move).inter (reads_top proper)

theorem computed : Computed g.arena g.sys.space.size (fun r => r.Reads g.sys.moveBit) g.top g.sys.fairness g.force g.outside where
  reads _ reads := proper.system.reads_range (reads.mono g.sys.move_subset_step)
  empty := Region.reads_empty _
  union _ _ := Region.Reads.union
  inter _ _ := Region.Reads.inter
  whole := reads_top proper
  top := (top_members proper).trans (arena_top proper).symm
  forces _ reads := ⟨reads_force proper reads, force_members proper reads⟩
  leaves c listed := ⟨reads_outside proper listed, outside_members proper c⟩
  constraints := rfl

theorem unfair_spec : g.unfair.value.Reads g.sys.moveBit ∧ g.unfair.value.members = g.arena.unfair := by
  unfold unfair
  cases fair : g.sys.fairness.isEmpty with
  | true =>
      rw [if_pos rfl]
      refine ⟨Region.reads_empty _, ?_⟩
      rw [g.arena.unfair_empty (List.isEmpty_iff.mp ((computed proper).fair ▸ fair))]
      exact Region.members_empty
  | false =>
      rw [if_neg Bool.false_ne_true]
      exact (computed proper).unfair

theorem operand_spec (reads : left.Reads g.sys.moveBit) :
    (left.inter g.top).Reads g.sys.moveBit ∧ (left.inter g.top).members = left.members ∩ g.arena.top := by
  refine ⟨reads.inter (reads_top proper), ?_⟩
  rw [Region.members_inter, (computed proper).top]

theorem strong_spec (leftReads : left.Reads g.sys.moveBit) (rightReads : right.Reads g.sys.moveBit) :
    (g.strong left right).value.Reads g.sys.moveBit ∧
      (g.strong left right).value.members = g.arena.wins .strong left.members right.members := by
  obtain ⟨leftTop, leftMembers⟩ := operand_spec proper leftReads
  obtain ⟨rightTop, rightMembers⟩ := operand_spec proper rightReads
  simp only [Arena.wins, Arena.strong, (computed proper).fair, ← leftMembers, ← rightMembers]
  unfold strong
  cases fair : g.sys.fairness.isEmpty with
  | true =>
      simp only [if_true]
      exact (computed proper).approach leftTop rightTop
  | false =>
      obtain ⟨unfairReads, same⟩ := unfair_spec proper
      simp only [Bool.false_eq_true, if_false]
      exact (computed proper).approachFair leftTop rightTop unfairReads same (rightMembers ▸ Set.inter_subset_right)

theorem weak_spec (leftReads : left.Reads g.sys.moveBit) (rightReads : right.Reads g.sys.moveBit) :
    (g.weak left right).value.Reads g.sys.moveBit ∧
      (g.weak left right).value.members = g.arena.wins .weak left.members right.members := by
  obtain ⟨leftTop, leftMembers⟩ := operand_spec proper leftReads
  obtain ⟨rightTop, rightMembers⟩ := operand_spec proper rightReads
  obtain ⟨unfairReads, same⟩ := unfair_spec proper
  simp only [Arena.wins, ← leftMembers, ← rightMembers]
  exact (computed proper).weak leftTop rightTop unfairReads same (rightMembers ▸ Set.inter_subset_right)

theorem next_members (known : right.Reads g.sys.moveBit) : (g.next right).value.Reads g.sys.moveBit ∧
    (g.next right).value.members = g.arena.wins .next left.members (right.inter g.sys.movesMask).members := by
  obtain ⟨unfairReads, unfairMembers⟩ := unfair_spec proper
  have reads := (known.inter g.reads_moves_mask).union unfairReads
  unfold next
  rw [Counted.value_bind, Counted.value_pure]
  refine ⟨reads_force proper reads, ?_⟩
  rw [force_members proper reads, Region.members_union, unfairMembers]
  rfl

theorem next_spec (known : g.sys.StateSet right) : (g.next right).value.Reads g.sys.moveBit ∧
    (g.next right).value.members = g.arena.wins .next left.members right.members := by
  obtain ⟨reads, members⟩ := @next_members g left right proper (known.reads.mono g.sys.state_subset_move)
  refine ⟨reads, members.trans ?_⟩
  rw [Region.members_inter]
  ext ρ
  -- a state of the goal has well-formed moves: the inputs of the transition that leads there
  refine and_congr_right fun _ => and_congr_right fun _ => forall₂_congr fun τ trans => forall₂_congr fun _ _ => ?_
  constructor
  · rintro ⟨σ, won | bad, same⟩
    · exact ⟨σ, .inl won.1, same⟩
    · exact ⟨σ, .inr bad, same⟩
  · rintro ⟨σ, won | bad, same⟩
    · obtain ⟨μ, state, inputs⟩ := Frame.exists_move proper.system.laid σ τ
      have inside := (Frame.mem_of_state known.reads state).mpr won
      refine ⟨μ, .inl ⟨inside, ?_⟩, state.trans same⟩
      rw [Frame.movesMask, Region.members_inter]
      exact ⟨known.inside inside, g.sys.reads_inputs_mask.mem (proper.system.trans_inputs trans) fun b bit => (inputs b bit).symm⟩
    · exact ⟨σ, .inr bad, same⟩

-- Keeping only the well-formed moves of the protocol loses nothing that is won.
theorem kept_wins {kind : GoalKind} {goal aim : Set Valuation} {won : Region} (reads : won.Reads g.sys.moveBit)
    (same : won.members = g.arena.wins kind goal aim) :
    ((won.inter g.sys.movesMask).inter g.protocol).Reads g.sys.moveBit ∧
      ((won.inter g.sys.movesMask).inter g.protocol).members = g.arena.wins kind goal aim := by
  refine ⟨(reads.inter g.reads_moves_mask).inter proper.protocol.reads, ?_⟩
  rw [Region.members_inter, Region.members_inter, same, Set.inter_assoc]
  apply Set.inter_eq_self_of_subset_left
  intro ρ member
  have played := arena_top proper ▸ g.arena.wins_subset_top _ _ _ member
  exact ⟨moves_masked proper played, proper.inside played⟩

theorem winning_spec (goal : Goal) (leftReads : goal.left.Reads g.sys.moveBit) (rightKnown : g.sys.StateSet goal.right) :
    (g.winning goal).value.Reads g.sys.moveBit ∧
      (g.winning goal).value.members = g.arena.wins goal.kind goal.left.members goal.right.members := by
  have rightReads := rightKnown.reads.mono g.sys.state_subset_move
  obtain ⟨kind, left, right⟩ := goal
  cases kind with
  | next =>
      obtain ⟨reads, same⟩ := @next_spec g left right proper rightKnown
      exact kept_wins proper reads same
  | strong =>
      obtain ⟨reads, same⟩ := strong_spec proper leftReads rightReads
      exact kept_wins proper reads same
  | weak =>
      obtain ⟨reads, same⟩ := weak_spec proper leftReads rightReads
      exact kept_wins proper reads same

theorem winning_members (goal : Goal) (leftReads : goal.left.Reads g.sys.moveBit) (rightReads : goal.right.Reads g.sys.moveBit) :
    (g.winning goal).value.Reads g.sys.moveBit ∧ (g.winning goal).value.members =
      g.arena.wins goal.kind goal.left.members (goal.right.inter g.sys.movesMask).members := by
  obtain ⟨kind, left, right⟩ := goal
  have masked : (right.inter g.sys.movesMask).members ∩ g.arena.top = right.members ∩ g.arena.top := by
    rw [Region.members_inter, Set.inter_assoc, arena_top proper, Set.inter_eq_self_of_subset_right (moves_masked proper)]
  cases kind with
  | next =>
      obtain ⟨reads, same⟩ := @next_members g left right proper rightReads
      exact kept_wins proper reads same
  | strong =>
      obtain ⟨reads, same⟩ := strong_spec proper leftReads rightReads
      have whole : g.arena.wins .strong left.members (right.inter g.sys.movesMask).members = g.arena.wins .strong left.members right.members := by
        simp only [Arena.wins, masked]
      rw [whole]
      exact kept_wins proper reads same
  | weak =>
      obtain ⟨reads, same⟩ := weak_spec proper leftReads rightReads
      have whole : g.arena.wins .weak left.members (right.inter g.sys.movesMask).members = g.arena.wins .weak left.members right.members := by
        simp only [Arena.wins, masked]
      rw [whole]
      exact kept_wins proper reads same

end

end MoveGame

end Coalition
