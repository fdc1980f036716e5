import Coalition.Proofs.Evaluation.Kept
import Coalition.Proofs.Strategy.Told

-- Whatever strategy is checked, it holds well-formed moves in reachable states; and so do the moves of it that win.

set_option autoImplicit false

namespace Coalition

open Eval Enumeration

namespace Arena

variable {α : Type} {a : Arena α} {left right : Set α} {m m' : α}

theorem wins_alike (forces : ∀ X, m ∈ a.force X → m' ∈ a.force X) (lefts : m ∈ left ∩ a.top → m' ∈ left ∩ a.top)
    (rights : m ∈ right ∩ a.top → m' ∈ right ∩ a.top) (kind : GoalKind) (wins : m ∈ a.wins kind left right) :
    m' ∈ a.wins kind left right := by
  have escapes : ∀ stay goal z, m ∈ a.escape stay goal z → m' ∈ a.escape stay goal z := fun _ _ _ ⟨c, listed, forced⟩ =>
    ⟨c, listed, forces _ forced⟩
  have unfairs : m ∈ a.unfair → m' ∈ a.unfair := fun unfair => a.unfair_eq ▸ escapes _ _ _ (a.unfair_eq.symm ▸ unfair)
  have stays : m ∈ a.staying (left ∩ a.top) (right ∩ a.top) → m' ∈ a.staying (left ∩ a.top) (right ∩ a.top) :=
    Or.imp (Or.imp rights lefts) unfairs
  cases kind with
  | next => exact forces _ wins
  | strong =>
      change m ∈ a.strong _ _ at wins
      show m' ∈ a.strong _ _
      cases free : a.constraints.isEmpty with
      | true =>
          rw [a.strong_eq_free free] at wins ⊢
          exact wins.imp rights fun both => ⟨lefts both.1, forces _ both.2⟩
      | false =>
          rw [a.strong_eq free] at wins ⊢
          exact ⟨stays wins.1, wins.2.imp rights (escapes _ _ _)⟩
  | weak =>
      change m ∈ a.weak _ _ at wins
      show m' ∈ a.weak _ _
      rw [a.weak_eq] at wins ⊢
      exact ⟨stays wins.1, wins.2.imp rights (forces _)⟩

end Arena

namespace Evaluator

variable {ev : Evaluator} {t : Team} {protocol moves : Region} {bits : Set Nat} {goal : Goal}

section

variable (wf : ev.sys.WellFormed) (of : t.Of ev.sys) (inside : bits ⊆ ev.sys.inputBit) (acts : ∀ b ∈ t.actionBits, b ∈ bits)

include wf

section

include of acts

-- What wins of some moves is told by the inputs that tell them: moves of one state and one action of the team win together.
theorem filtered_told (protocolTold : ev.sys.Told bits protocol) (left : ev.sys.StateSet goal.left) (right : ev.sys.StateSet goal.right)
    (told : ev.sys.Told bits moves) (le : moves.members ⊆ protocol.members) :
    ev.sys.Told bits (ev.filtered t protocol goal moves) := by
  have posed : ev.Posed t protocol goal := ⟨wf, of, protocolTold.played, left, right⟩
  refine ⟨filtered_played posed le told.played.reads, fun ρ member σ mask same agree => ?_⟩
  have won := (filtered_spec posed le told.played.reads).2
  rw [won] at member ⊢
  have played : ρ ∈ moves.members := System.won_subset member
  have here : σ ∈ moves.members := told.own ρ played σ mask same agree
  have forces : ∀ X, ρ ∈ ((ev.sys.arena t protocol).on moves.members).force X → σ ∈ ((ev.sys.arena t protocol).on moves.members).force X :=
    fun X forced => ⟨here, le here, fun τ trans state plays =>
      forced.2.2 τ trans (state.trans same) fun b own => (plays b own).trans (agree b (acts b own))⟩
  exact Arena.wins_alike forces (fun both => ⟨(Frame.mem_of_state left.reads same).mpr both.1, le here, here⟩)
    (fun both => ⟨(Frame.mem_of_state right.reads same).mpr both.1, le here, here⟩) goal.kind member

end

omit wf in
theorem first_conflict_told {sp : Splitter} (system : sp.sys.WellFormed) (team : sp.team.Of sp.sys) (fuel : Nat)
    (told : sp.sys.Told bits moves) : Yields (firstConflict sp fuel moves) fun found => ∀ here ∈ found, sp.sys.Told bits here := by
  induction fuel generalizing moves with
  | zero => exact yields_error Error.endless
  | succ fuel ih =>
      unfold firstConflict
      split
      · exact yields_ok (by simp)
      · refine yields_bind (sp.pick_move_reads moves) fun move reads => ?_
        have here := told.states (Splitter.class_of_move_reads system team reads)
        refine yields_bind (P := fun _ => True) (fun _ _ => trivial) fun conflict _ => ?_
        split
        · exact yields_ok fun _ same => Option.some.inj same ▸ here
        · exact ih (told.diff here)

end

theorem class_parts_inside (posed : ev.Posed t protocol goal) (played : ev.sys.PlayedSet moves) {here part : Region}
    (found : firstConflict (ev.splitter t) (ev.splitter t).bound moves = .ok (some here))
    (listed : part ∈ ((ev.splitter t).splitClass .empty here).items) : part.members ⊆ moves.members := by
  obtain ⟨none, _⟩ | ⟨first, same, clash⟩ := first_conflict_spec posed (ev.splitter t).bound played (System.move_count_bound _ t moves)
  · rw [found] at none
    cases none
  · obtain rfl : first = here := by
      rw [found] at same
      simpa using same.symm
    have nothing : ev.sys.PlayedSet .empty := ⟨by simp, by simp, Region.reads_empty _⟩
    have parts := @Splitter.split_class_spec (ev.splitter t) _ _ posed.system nothing posed.team (by simp [Agreeing]) clash.played clash.alike
    exact (parts.inside part listed).trans clash.inside

-- The moves that arise when what a team can do is decided within a protocol.
inductive Arises (ev : Evaluator) (t : Team) (protocol : Region) : Region → Prop where
  | whole : Arises ev t protocol protocol
  | near {states : Region} (known : ev.sys.StateSet states) : Arises ev t protocol (protocol.inter states)
  | won {moves : Region} {goal : Goal} (arises : Arises ev t protocol moves) (left : ev.sys.StateSet goal.left)
      (right : ev.sys.StateSet goal.right) : Arises ev t protocol (ev.filtered t protocol goal moves)
  | split {moves strategy : Region} (arises : Arises ev t protocol moves)
      (listed : strategy ∈ ((ev.splitter t).split moves .empty).items) : Arises ev t protocol strategy
  | parted {moves here part : Region} (arises : Arises ev t protocol moves)
      (found : firstConflict (ev.splitter t) (ev.splitter t).bound moves = .ok (some here))
      (listed : part ∈ ((ev.splitter t).splitClass .empty here).items) : Arises ev t protocol ((moves.diff here).union part)
  | extended {moves closed strategy : Region} {operands : Operands} (arises : Arises ev t protocol moves)
      (known : ev.sys.StateSet closed)
      (listed : strategy ∈ (Search.strategies ⟨ev, t, protocol, operands⟩ closed moves).items) : Arises ev t protocol strategy

section

variable (wf : ev.sys.WellFormed) (of : t.Of ev.sys) (inside : bits ⊆ ev.sys.inputBit) (acts : ∀ b ∈ t.actionBits, b ∈ bits)
  (protocolTold : ev.sys.Told bits protocol)

include wf of inside acts protocolTold

theorem Arises.told (arises : ev.Arises t protocol moves) : moves.members ⊆ protocol.members ∧ ev.sys.Told bits moves := by
  have ofTeam : (ev.splitter t).team.Of (ev.splitter t).sys := of
  have splits : ∀ {moves : Region}, ev.sys.Told bits moves → ((ev.splitter t).split moves .empty).Each (ev.sys.Told bits) :=
    fun told => @Splitter.split_told (ev.splitter t) _ _ _ wf inside acts ofTeam told
  induction arises with
  | whole => exact ⟨Set.Subset.refl _, protocolTold⟩
  | near known => exact ⟨Region.inter_subset_left _ _, protocolTold.states known.reads⟩
  | won _ left right ih =>
      have posed := fun goal => @Posed.mk ev t protocol goal wf of protocolTold.played
      refine ⟨?_, filtered_told wf of acts protocolTold left right ih.2 ih.1⟩
      rw [(filtered_spec (posed _ left right) ih.1 ih.2.played.reads).2]
      exact System.won_protocol
  | split _ listed ih =>
      have parts := @Splitter.split_free_spec (ev.splitter t) _ wf ofTeam ih.2.played
      exact ⟨(parts.inside _ listed).trans ih.1, splits ih.2 _ listed⟩
  | @parted moves here part _ found listed ih =>
      have hereTold := @first_conflict_told _ _ (ev.splitter t) wf ofTeam _ ih.2 _ found here rfl
      have partTold := @Splitter.split_class_told (ev.splitter t) _ .empty _ wf inside acts hereTold part listed
      have posed : ev.Posed t protocol ⟨.next, .empty, .empty⟩ :=
        ⟨wf, of, protocolTold.played, Frame.StateSet.empty _, Frame.StateSet.empty _⟩
      have within := class_parts_inside posed ih.2.played found listed
      refine ⟨?_, (ih.2.diff hereTold).union partTold⟩
      rw [Region.members_union, Region.members_diff]
      exact (Set.union_subset Set.sdiff_subset within).trans ih.1
  | @extended moves closed strategy operands _ known listed ih =>
      have plays : Search.Plays ⟨ev, t, protocol, operands⟩ := ⟨wf, of, protocolTold.played⟩
      refine ⟨((Search.strategies_partial plays known ih.1 ih.2.played.reads).2 strategy listed).inside, ?_⟩
      have starts : (closed.inter moves) = moves.inter closed :=
        Region.members_injective (by rw [Region.members_inter, Region.members_inter, Set.inter_comm])
      have each := (splits (starts ▸ ih.2.states known.reads)).bind fun start told =>
        @Splitter.extend_told (ev.splitter t) _ _ _ _ wf inside acts ofTeam protocolTold ih.2.played.reads told
      exact each strategy listed

end

/-- What is found is a set of states, with any options and whatever was asked before. What is checked to win is a set of moves in reachable
states, and if every key of a coalition stands for one team, no inputs but those of its agents tell the moves apart. -/
theorem evaluated_regions {d : Description} (built : d.build = .ok ev.sys) {asked : List Question} (clear : ∀ q ∈ asked, q.Clear ev.sys) :
    (∀ f r k, (ev.satisfying f).run (ev.after asked) = (.ok r, k) → ev.sys.StateSet r) ∧
    (∀ f states r k, states.Reads ev.sys.moveBit → (ev.satisfyingAmong f states).run (ev.after asked) = (.ok r, k) → ev.sys.StateSet r) ∧
    ∀ t, ev.sys.TeamIn asked t → ∀ protocol k, (Eval.protocol ev.sys t).run (ev.after asked) = (.ok protocol, k) →
      ∀ moves, ev.Arises t protocol moves →
        ev.sys.PlayedSet moves ∧ (KeyedApart (ev.sys.TeamIn asked) → ev.sys.Told {b | b ∈ t.actionBits} moves) := by
  have wf := d.build_well_formed _ built
  have kept : (ev.after asked).Kept ev.sys fun _ => True := after_kept wf clear fun _ _ => trivial
  refine ⟨fun f r k ran => ?_, fun f states r k reads ran => ?_, fun t listed protocol k ran moves arises => ?_⟩
  · exact (Keeps.run (keeps_satisfying wf f fun _ _ _ _ => trivial) kept).2 r k ran
  · exact (Keeps.run (keeps_satisfying_among wf f (fun _ _ _ _ => trivial) reads) kept).2 r k ran
  · obtain ⟨q, _, names, _, found⟩ := id listed
    obtain ⟨of, named⟩ := ev.sys.team_of_spec names t found
    obtain ⟨region, l, answered, same, _⟩ := ends_protocol (m := ev.after asked) named
    obtain rfl : region = protocol := by
      rw [answered] at ran
      exact Except.ok.inj (congrArg Prod.fst ran)
    have acts : {b | b ∈ t.actionBits} ⊆ ev.sys.inputBit := fun b own => wf.action_bit of own
    constructor
    · obtain ⟨u, ofToo, other⟩ := kept.sound.protocol_for of
      have played := wf.protocol_played ofToo
      rw [← other, ← same] at played
      exact (arises.told wf of (Set.Subset.refl _) acts (System.Told.of_played played)).2.played
    · intro apart
      have keptApart : (ev.after asked).Kept ev.sys (ev.sys.TeamIn asked) := after_kept wf clear fun _ inside => inside
      have own := keptApart.own apart t listed
      have told := wf.protocol_told of
      rw [← own.protocol_for, ← same] at told
      exact (arises.told wf of acts (fun b inside => inside) told).2

theorem evaluated_regions_lamp : ∃ (ev : Evaluator) (t : Team) (protocol r : Region) (k l : Memory), lamp.build = .ok ev.sys ∧
    ev.sys.teamOf ["hand"] = .ok t ∧ (ev.satisfyingAmong lampQuestion ev.sys.init).run (ev.after [.all lampQuestion]) = (.ok r, k) ∧
    ev.sys.StateSet r ∧ (Eval.protocol ev.sys t).run (ev.after [.all lampQuestion]) = (.ok protocol, l) ∧
    ∀ strategy ∈ ((ev.splitter t).split protocol .empty).items, ev.sys.Told {b | b ∈ t.actionBits} strategy := by
  obtain ⟨sys, t, built, named, _, _, _, _, r, k, ran⟩ := lamp_answered
  let ev : Evaluator := ⟨sys, { variant := .onRequest }, false⟩
  have apart : KeyedApart (ev.sys.TeamIn [.all lampQuestion]) :=
    @System.apart_of_single ev.sys _ ["hand"] (by simp [Question.formula, lampQuestion, Formula.coalitions])
  have listed : ev.sys.TeamIn [.all lampQuestion] t :=
    ⟨.all lampQuestion, List.mem_singleton_self _, ["hand"], List.mem_singleton_self _, named⟩
  obtain ⟨protocol, l, answered, -, -⟩ := ends_protocol (m := ev.after [.all lampQuestion]) (sys.team_of_spec _ t named).2
  have spec := @evaluated_regions ev lamp built [.all lampQuestion] (by simp [Question.Clear])
  have told := spec.2.2 t listed protocol l answered
  refine ⟨ev, t, protocol, r, k, l, built, named, ran, ?_, answered, fun strategy part => ?_⟩
  · exact spec.2.1 lampQuestion sys.init r k (lamp.build_well_formed sys built).init.moves ran
  · exact (told strategy (.split .whole part)).2 apart

end Evaluator

end Coalition
