import Coalition.Proofs.Evaluation.Matches
import Coalition.Proofs.Evaluation.Search

-- The search for strategies runs alike on systems that differ in their constraints, as long as moves win alike and operands are answered
-- alike.

set_option autoImplicit false

namespace Coalition

open Eval

-- Moves of a protocol win a goal alike under other constraints.
def Evaluator.WinsAlike (ev : Evaluator) (constraints : List Region) (t : Team) (protocol : Region) : Prop :=
  ∀ goal moves, ev.sys.StateSet goal.left → ev.sys.StateSet goal.right → moves.members ⊆ protocol.members → moves.Reads ev.sys.moveBit →
    (ev.under constraints).filtered t protocol goal moves = ev.filtered t protocol goal moves

structure Operands.Agree (o o' : Operands) (ev : Evaluator) (R : Memory → Memory → Prop) : Prop where
  kind : o'.kind = o.kind
  left : ∀ states, ev.sys.StateSet states → ev.Agree R (o.left states) (o'.left states)
  right : ∀ states, ev.sys.StateSet states → ev.Agree R (o.right states) (o'.right states)

variable {R : Memory → Memory → Prop} {constraints : List Region} {o o' : Operands}

theorem matches_operands {ev : Evaluator} (agree : o.Agree o' ev R) {states : Region} (known : ev.sys.StateSet states) :
    Matches R (fun goal => goal.kind = o.kind ∧ ev.sys.StateSet goal.left ∧ ev.sys.StateSet goal.right) (o.on states) (o'.on states) := by
  have rest : ∀ left, ev.sys.StateSet left → Matches R
      (fun goal : Goal => goal.kind = o.kind ∧ ev.sys.StateSet goal.left ∧ ev.sys.StateSet goal.right)
      (o.right states >>= fun right => pure ⟨o.kind, left, right⟩) (o'.right states >>= fun right => pure ⟨o.kind, left, right⟩) :=
    fun left inside => matches_bind (agree.right states known) fun right other => matches_pure ⟨rfl, inside, other⟩
  unfold Operands.on
  rw [agree.kind]
  dsimp only
  split
  · exact rest .empty (.empty _)
  · exact matches_bind (agree.left states known) rest

namespace Search

def under (s : Search) (constraints : List Region) (o' : Operands) : Search :=
  { s with ev := s.ev.under constraints, operands := o' }

variable {s : Search}

theorem strategies_under (closed moves : Region) : (s.under constraints o').strategies closed moves = s.strategies closed moves := by
  unfold strategies
  rw [show (s.under constraints o').splitter = s.splitter.under constraints from rfl, Splitter.split_under]
  exact congrArg (Enumeration.bind · _) (funext fun start => s.splitter.extend_under constraints s.protocol start moves)

theorem separate_under (all : Region) : (s.under constraints o').separate all = s.separate all := by
  unfold separate
  dsimp only
  rw [show (s.under constraints o').ev.sys = s.ev.sys.under constraints from rfl, reach_until_under]
  rfl

theorem reach_until_known {sys : System} (wf : sys.WellFormed) {all : Region} (known : sys.StateSet all) (fuel : Nat) {reached : Region}
    (reachedKnown : sys.StateSet reached) : sys.StateSet (reachUntil sys all fuel reached) := by
  induction fuel generalizing reached with
  | zero => exact known
  | succ fuel ih =>
      unfold reachUntil
      dsimp only
      split
      · exact reachedKnown
      · split
        · exact known
        · exact ih (reachedKnown.union (wf.post_state_set reachedKnown.moves))

theorem pick_state_known {sp : Splitter} {moves : Region} (inside : sp.sys.StateSet moves) (laid : sp.sys.Laid) :
    Yields (sp.pickState moves) sp.sys.StateSet := by
  intro c found
  have some : (sp.sys.statesOf moves).members.Nonempty := by
    refine Region.not_empty_members.mp (Bool.eq_false_iff.mpr fun none => ?_)
    unfold Splitter.pickState Frame.pickState Region.pick at found
    rw [if_pos none] at found
    cases found
  obtain ⟨σ, member, c', foundToo, reads, cell⟩ := Splitter.pick_state_of some
  rw [foundToo] at found
  obtain rfl := Except.ok.inj found
  rw [inside.states_of laid] at member
  refine ⟨fun ρ here => ?_, reads⟩
  exact (Frame.mem_of_state sp.sys.reads_states_mask ((cell ρ).mp here)).mpr (inside.inside member)

theorem separate_known (wf : s.ev.sys.WellFormed) {all : Region} (known : s.ev.sys.StateSet all) :
    Yields (s.separate all) s.ev.sys.StateSet := by
  have near : ∀ states, s.ev.sys.StateSet states →
      Yields (s.splitter.pickState states >>= fun state => pure ((s.close state).inter all)) s.ev.sys.StateSet := fun states inside =>
    yields_bind (@pick_state_known s.splitter states inside wf.laid) fun state picked =>
      yields_ok ((close_state_set wf picked).inter known.reads)
  unfold separate
  cases s.ev.options.separation with
  | none => exact yields_ok known
  | random => exact near all known
  | reach => exact near _ ((reach_until_known wf known _ wf.init).inter known.reads)

section

variable (plays : s.Plays) (linked : s.ev.sys.Linked R) (wins : s.ev.WinsAlike constraints s.team s.protocol)
  (agree : s.operands.Agree o' s.ev R)

include plays linked wins agree

theorem matches_winning {strategy source : Region} (inside : strategy.members ⊆ s.protocol.members)
    (reads : strategy.Reads s.ev.sys.moveBit) (known : s.ev.sys.StateSet source) :
    Matches R (fun r => s.ev.sys.PlayedSet r ∧ r.members ⊆ s.protocol.members) (s.winning strategy source)
      ((s.under constraints o').winning strategy source) := by
  unfold winning
  rw [show (s.under constraints o').operands.kind = s.operands.kind from agree.kind]
  refine matches_bind (matches_operands agree (asked_state_set plays.system (plays.played.sub inside reads) known _)) fun goal cut => ?_
  have posed : s.ev.Posed s.team s.protocol goal := ⟨plays.system, plays.team, plays.played, cut.2.1, cut.2.2⟩
  refine matches_counted linked (wins goal strategy cut.2.1 cut.2.2 inside reads) ⟨Evaluator.filtered_played posed inside reads, ?_⟩
  exact (Evaluator.filtered_spec posed inside reads).2.le.trans System.won_protocol

theorem matches_try_all {round closed : Region} (roundKnown : s.ev.sys.StateSet round) (closedKnown : s.ev.sys.StateSet closed) (size : Nat)
    (e : Enumeration Region) (each : ∀ U ∈ e.items, (s.splitter).Partial s.protocol U) {remaining won : Region}
    (remainingKnown : s.ev.sys.StateSet remaining) (wonKnown : s.ev.sys.StateSet won) :
    Matches R (fun p => s.ev.sys.StateSet p.remaining ∧ s.ev.sys.StateSet p.won) (s.tryAll round closed size e remaining won)
      ((s.under constraints o').tryAll round closed size e remaining won) := by
  induction e generalizing remaining won with
  | done => exact matches_pure ⟨remainingKnown, wonKnown⟩
  | fail error => exact matches_throw error
  | item strategy tail ih =>
      obtain ⟨inside, reads, _⟩ := each strategy List.mem_cons_self
      rw [try_all_item, try_all_item]
      refine matches_bind (matches_count linked _ _) fun _ _ =>
        matches_bind (matches_winning plays linked wins agree inside reads closedKnown) fun moves found => ?_
      have nowKnown := now_state_set plays.system wonKnown roundKnown found.1
      have leaves := @turn_leaves s round remaining won _ size remainingKnown nowKnown
      dsimp only
      rw [show (s.under constraints o').turn = s.turn from rfl,
        show (s.under constraints o').splitter.surelyWinning = s.splitter.surelyWinning from rfl,
        show (s.under constraints o').ev.sys.inputBits = s.ev.sys.inputBits from rfl]
      generalize won.union ((s.splitter.surelyWinning (moves.hide s.ev.sys.inputBits)).inter round) = now at nowKnown leaves ⊢
      generalize s.turn round size remaining won now = turn at leaves ⊢
      cases turn with
      | on rest => exact ih () (fun U listed => each U (List.mem_cons_of_mem _ listed)) leaves nowKnown
      | stop rest => exact matches_bind (matches_count linked _ _) fun _ _ => matches_pure ⟨leaves, nowKnown⟩
      | fail => exact matches_throw .noThreshold

theorem matches_win_round {moves round : Region} (roundKnown : s.ev.sys.StateSet round) (inside : moves.members ⊆ s.protocol.members)
    (reads : moves.Reads s.ev.sys.moveBit) (fuel : Nat) {remaining won : Region} (remainingKnown : s.ev.sys.StateSet remaining)
    (wonKnown : s.ev.sys.StateSet won) :
    s.ev.Agree R (s.winRound moves round fuel remaining won) ((s.under constraints o').winRound moves round fuel remaining won) := by
  induction fuel generalizing remaining won with
  | zero => exact matches_throw .endless
  | succ fuel ih =>
      have closedKnown := close_state_set plays.system remainingKnown
      obtain ⟨_, each⟩ := strategies_partial plays closedKnown inside reads
      unfold winRound
      refine matches_ite (fun _ => matches_pure wonKnown) fun _ => ?_
      dsimp only
      rw [strategies_under]
      refine matches_bind (matches_try_all plays linked wins agree roundKnown closedKnown _ _ each remainingKnown wonKnown) fun p known => ?_
      exact matches_ite (fun _ => ih known.1 known.2) fun _ => matches_pure known.2

theorem matches_win_all {moves : Region} (inside : moves.members ⊆ s.protocol.members) (reads : moves.Reads s.ev.sys.moveBit) (fuel : Nat)
    {all won : Region} (allKnown : s.ev.sys.StateSet all) (wonKnown : s.ev.sys.StateSet won) :
    s.ev.Agree R (s.winAll moves fuel all won) ((s.under constraints o').winAll moves fuel all won) := by
  induction fuel generalizing all won with
  | zero => exact matches_throw .endless
  | succ fuel ih =>
      unfold winAll
      refine matches_ite (fun _ => matches_pure wonKnown) fun _ => ?_
      rw [separate_under]
      refine matches_bind (matches_of_except (separate_known plays.system allKnown)) fun round known => ?_
      refine matches_bind (matches_win_round plays linked wins agree known inside reads _ known wonKnown) fun now gained => ?_
      exact ih ((allKnown.diff known.reads).diff gained.reads) gained

theorem matches_run {states : Region} (known : s.ev.sys.StateSet states) :
    s.ev.Agree R (s.run states) ((s.under constraints o').run states) := by
  have led := (plays.system.reach_from_spec known.moves).1
  have narrow : (s.protocol.inter (s.ev.sys.reachFrom states)).members ⊆ s.protocol.members := Region.inter_subset_left _ _
  have rest : ∀ moves : Region, s.ev.sys.PlayedSet moves ∧ moves.members ⊆ s.protocol.members → s.ev.Agree R
      (s.winAll moves (Nat.pow 2 s.ev.sys.stateBits.length + 1)
        (states.inter (s.splitter.surelyWinning (moves.hide s.ev.sys.inputBits))) .empty)
      ((s.under constraints o').winAll moves (Nat.pow 2 s.ev.sys.stateBits.length + 1)
        (states.inter (s.splitter.surelyWinning (moves.hide s.ev.sys.inputBits))) .empty) := fun moves found =>
    matches_win_all plays linked wins agree found.2 found.1.reads _
      (known.inter (s.splitter.surely_winning_state_set plays.system found.1).reads) (.empty _)
  unfold run
  refine matches_ite (fun _ => ?_) fun _ => matches_bind (matches_pure ⟨plays.played, Set.Subset.refl _⟩) rest
  exact matches_bind (matches_winning plays linked wins agree narrow (plays.played.reads.inter led.moves) known) rest

end

end Search

end Coalition
