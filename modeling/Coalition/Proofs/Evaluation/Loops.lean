import Coalition.Proofs.Evaluation.Arising
import Coalition.Proofs.Evaluation.FairPath
import Coalition.Proofs.Strategy.Plans

-- The fixpoints that evaluations compute, with any options and whatever has been asked before.

set_option autoImplicit false

namespace Coalition

namespace Evaluator

open Eval

-- What a computation can give, from some memory that evaluations leave.
def CanGive (ev : Evaluator) {α : Type} (x : Eval α) (a : α) : Prop :=
  ∃ m n : Memory, m.Kept ev.sys (fun _ => True) ∧ x.run m = (.ok a, n)

-- What operators are applied to: the states of formulas, on all states or on those asked for. A next-step goal has nothing on the left.
inductive Operand (ev : Evaluator) : Region → Prop where
  | none : Operand ev .empty
  | whole {f : Formula} {r : Region} (given : ev.CanGive (ev.everywhere f) r) : Operand ev r
  | among {f : Formula} {states r : Region} (clear : states.Reads ev.sys.moveBit) (given : ev.CanGive ((ev.query f).run states) r) :
      Operand ev r

structure Playing (ev : Evaluator) (t : Team) (protocol : Region) : Prop where
  named : ∃ names, ev.sys.teamOf names = .ok t
  given : ev.CanGive (Eval.protocol ev.sys t) protocol

-- The fixpoints that evaluations compute, each with its plan.
inductive Performs (ev : Evaluator) : Counted Region → Plan → Prop where
  | fair : Performs ev ev.sys.fairStates (ev.sys.alwaysPlan ev.sys.statesMask)
  | always {states : Region} (operand : ev.Operand states) : Performs ev (ev.sys.someAlways states) (ev.sys.alwaysPlan states)
  | until {fair left right : Region} (paths : ev.CanGive ev.fairStates fair) (first : ev.Operand left) (second : ev.Operand right) :
      Performs ev (ev.sys.someUntil fair left right) (ev.sys.untilPlan fair left right)
  | chain {fair states : Region} {names : List String} {t : Team} (named : ev.sys.teamOf names = .ok t)
      (paths : fair = .empty ∨ ev.CanGive ev.fairStates fair) (operand : ev.Operand states) :
      Performs ev (ev.sys.possibleByChain fair t states) (ev.sys.chainPlan fair t states)
  | link {states : Region} {names : List String} {t : Team} (named : ev.sys.teamOf names = .ok t) (requested : ev.sys.StateSet states) :
      Performs ev (ev.sys.equivalentsByChain t states) (ev.sys.linkPlan t states)
  | forcesUnfair {t : Team} {protocol : Region} (playing : ev.Playing t protocol) :
      Performs ev (StateGame.unfair ⟨ev.sys, t, protocol⟩) (StateGame.unfairPlan ⟨ev.sys, t, protocol⟩)
  | permitsFair {t : Team} {protocol : Region} (playing : ev.Playing t protocol) :
      Performs ev (StateGame.fair ⟨ev.sys, t, protocol⟩) (StateGame.permitAlwaysPlan ⟨ev.sys, t, protocol⟩ ev.sys.statesMask)
  | forceStrong {t : Team} {protocol unfair left right : Region} (playing : ev.Playing t protocol)
      (paths : ev.CanGive (ev.unfairFor ⟨ev.sys, t, protocol⟩) unfair) (first : ev.Operand left) (second : ev.Operand right) :
      Performs ev (StateGame.forceStrong ⟨ev.sys, t, protocol⟩ unfair left right)
        (StateGame.forceStrongPlan ⟨ev.sys, t, protocol⟩ unfair left right)
  | forceWeak {t : Team} {protocol unfair left right : Region} (playing : ev.Playing t protocol)
      (paths : ev.CanGive (ev.unfairFor ⟨ev.sys, t, protocol⟩) unfair) (first : ev.Operand left) (second : ev.Operand right) :
      Performs ev (StateGame.forceWeak ⟨ev.sys, t, protocol⟩ unfair left right)
        (StateGame.forceWeakPlan ⟨ev.sys, t, protocol⟩ unfair left right)
  | permitStrong {t : Team} {protocol fair left right : Region} (playing : ev.Playing t protocol)
      (paths : ev.CanGive (fairFor ⟨ev.sys, t, protocol⟩) fair) (first : ev.Operand left) (second : ev.Operand right) :
      Performs ev (StateGame.permitStrong ⟨ev.sys, t, protocol⟩ fair left right)
        (StateGame.permitStrongPlan ⟨ev.sys, t, protocol⟩ fair left right)
  | permitWeak {t : Team} {protocol fair left right : Region} (playing : ev.Playing t protocol)
      (paths : fair = .univ ∨ ev.CanGive (fairFor ⟨ev.sys, t, protocol⟩) fair) (first : ev.Operand left) (second : ev.Operand right) :
      Performs ev (StateGame.permitWeak ⟨ev.sys, t, protocol⟩ fair left right)
        (StateGame.permitWeakPlan ⟨ev.sys, t, protocol⟩ fair left right)
  | moves {t : Team} {protocol moves : Region} {goal : Goal} (playing : ev.Playing t protocol) (arises : ev.Arises t protocol moves)
      (first : ev.Operand goal.left) (second : ev.Operand goal.right) :
      Performs ev (MoveGame.winning ⟨ev.sys, t, protocol, moves⟩ goal) (MoveGame.winningPlan ⟨ev.sys, t, protocol, moves⟩ goal)
  | codedUnfair {task : Task} {names : List String} {entry : EncodingEntry} (named : ev.sys.teamOf names = .ok task.team)
      (first : ev.Operand task.goal.left) (second : ev.Operand task.goal.right) (given : ev.CanGive (ev.encodingFor task) (some entry)) :
      Performs ev entry.encoding.unfair entry.encoding.unfairPlan
  | coded {task : Task} {names : List String} {entry : EncodingEntry} {unfair : Region} (named : ev.sys.teamOf names = .ok task.team)
      (first : ev.Operand task.goal.left) (second : ev.Operand task.goal.right) (given : ev.CanGive (ev.encodingFor task) (some entry))
      (paths : ev.CanGive (encodedUnfair (ev.encodingKey task) entry) unfair) :
      Performs ev (entry.encoding.winning task.goal unfair) (entry.encoding.winningPlan task.goal unfair)

variable {ev : Evaluator}

theorem CanGive.holds {α : Type} {x : Eval α} {a : α} {P : α → Prop} (given : ev.CanGive x a)
    (keeps : ev.Keeps (fun _ => True) P x) : P a := by
  obtain ⟨m, n, kept, ran⟩ := given
  exact (Keeps.run keeps kept).2 a n ran

section

variable (wf : ev.sys.WellFormed) {t : Team} {protocol r fair : Region}

include wf

theorem Operand.state_set (operand : ev.Operand r) : ev.sys.StateSet r := by
  cases operand with
  | none => exact .empty _
  | whole given => exact given.holds (keeps_everywhere wf _ fun _ _ _ _ => trivial)
  | among clear given => exact given.holds (keeps_satisfying_among wf _ (fun _ _ _ _ => trivial) clear)

theorem Playing.plays (playing : ev.Playing t protocol) : StateGame.Plays ⟨ev.sys, t, protocol⟩ := by
  obtain ⟨⟨names, named⟩, given⟩ := playing
  obtain ⟨u, of, same⟩ := given.holds (keeps_protocol trivial (ev.sys.team_of_spec names t named).2)
  exact ⟨wf, same ▸ wf.protocol_played of⟩

theorem Playing.moves (playing : ev.Playing t protocol) {moves : Region} (arises : ev.Arises t protocol moves) :
    ev.sys.PlayedSet moves := by
  obtain ⟨names, named⟩ := playing.named
  have of := (ev.sys.team_of_spec names t named).1
  have told := System.Told.of_played (playing.plays wf).played
  exact (arises.told wf of (Set.Subset.refl _) (fun _ own => wf.action_bit of own) told).2.played

theorem fair_over (given : ev.CanGive ev.fairStates fair) : fair.Over ev.sys.space.size := by
  obtain ⟨m, n, kept, ran⟩ := given
  obtain ⟨c, known⟩ := fair_states_run ev kept.sound.fair
  rw [known] at ran
  have same : ev.sys.fairStates.value = fair := Except.ok.inj (congrArg Prod.fst ran)
  exact same ▸ wf.state_set_range wf.fair_state_set

theorem encoding_over {task : Task} {names : List String} {entry : EncodingEntry} (named : ev.sys.teamOf names = .ok task.team)
    (first : ev.Operand task.goal.left) (second : ev.Operand task.goal.right) (given : ev.CanGive (ev.encodingFor task) (some entry)) :
    entry.Proper ev.sys ∧ entry.encoding.size = ev.sys.space.size ∧ entry.encoding.Over := by
  have known := (ev.sys.team_of_spec names task.team named).2
  have keeps := @keeps_encoding_for ev (fun _ => True) task.team wf trivial known task.goal (first.state_set wf) (second.state_set wf)
  have proper := given.holds (keeps task.formula task.ability) entry rfl
  obtain ⟨w, u, moves, of, ofToo, played, encoded⟩ := proper.encoding
  exact ⟨proper, Encoding.of_moves_over wf of ofToo played _ encoded⟩

end

-- Every fixpoint that an evaluation computes is what its plan says, and the plan is regular.
theorem Performs.planned (wf : ev.sys.WellFormed) {c : Counted Region} {p : Plan} (performs : ev.Performs c p) :
    c = p.eval ev.sys.space.size [] ∧ p.Regular ev.sys.space.size := by
  cases performs with
  | fair => exact ⟨System.some_always_plan, wf.regular_always (.mask _)⟩
  | always operand => exact ⟨System.some_always_plan, wf.regular_always (operand.state_set wf)⟩
  | «until» paths first second =>
      exact ⟨System.some_until_plan, wf.regular_until (fair_over wf paths) (wf.state_set_range (first.state_set wf))
        (wf.state_set_range (second.state_set wf))⟩
  | chain named paths operand =>
      have spans := paths.elim (fun none => none ▸ Region.reads_empty _) (fair_over wf)
      exact ⟨System.possible_by_chain_plan, wf.regular_chain spans (wf.state_set_range (operand.state_set wf))⟩
  | link named requested => exact ⟨System.equivalents_by_chain_plan, wf.regular_link (wf.state_set_range requested)⟩
  | forcesUnfair playing =>
      have regular := StateGame.regular_unfair (playing.plays wf)
      exact ⟨StateGame.unfair_plan, regular⟩
  | permitsFair playing =>
      have regular := StateGame.regular_permit_always (playing.plays wf) (.mask _)
      exact ⟨StateGame.permit_always_plan, regular⟩
  | forceStrong playing paths first second =>
      have bad := paths.holds (keeps_unfair_for rfl (playing.plays wf))
      have regular := StateGame.regular_force_strong (playing.plays wf) (first.state_set wf) (second.state_set wf) bad
      exact ⟨StateGame.force_strong_plan, regular⟩
  | forceWeak playing paths first second =>
      have bad := paths.holds (keeps_unfair_for rfl (playing.plays wf))
      have regular := StateGame.regular_force_weak (playing.plays wf) (first.state_set wf) (second.state_set wf) bad
      exact ⟨StateGame.force_weak_plan, regular⟩
  | permitStrong playing paths first second =>
      have good := wf.state_set_range (paths.holds (keeps_fair_for rfl (playing.plays wf)))
      have regular := StateGame.regular_permit_strong (playing.plays wf) (first.state_set wf) (second.state_set wf) good
      exact ⟨StateGame.permit_strong_plan, regular⟩
  | permitWeak playing paths first second =>
      have good := paths.elim (fun all => all ▸ Region.reads_univ _) fun given =>
        wf.state_set_range (given.holds (keeps_fair_for rfl (playing.plays wf)))
      have regular := StateGame.regular_permit_weak (playing.plays wf) (first.state_set wf) (second.state_set wf) good
      exact ⟨StateGame.permit_weak_plan, regular⟩
  | @moves t protocol moves goal playing arises first second =>
      have regular := @MoveGame.regular_winning ⟨ev.sys, t, protocol, moves⟩ goal wf (playing.plays wf).played (playing.moves wf arises)
        (wf.state_set_range (first.state_set wf)) (wf.state_set_range (second.state_set wf))
      exact ⟨@MoveGame.winning_plan ⟨ev.sys, t, protocol, moves⟩ goal, regular⟩
  | codedUnfair named first second given =>
      obtain ⟨_, size, spans⟩ := encoding_over wf named first second given
      exact spans.unfair_planned size
  | coded named first second given paths =>
      obtain ⟨proper, size, spans⟩ := encoding_over wf named first second given
      exact spans.winning_planned size (paths.holds (keeps_encoded_unfair _ proper)) (wf.state_set_range (first.state_set wf))
        (wf.state_set_range (second.state_set wf))

end Evaluator

end Coalition
