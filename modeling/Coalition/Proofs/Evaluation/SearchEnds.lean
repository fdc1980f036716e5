import Coalition.Proofs.Evaluation.Failures
import Coalition.Proofs.Evaluation.FullObservation

-- The search for strategies of a coalition ends on every request, whatever its operands are and whatever has been asked before.

set_option autoImplicit false

namespace Coalition

namespace Evaluator

open Eval

def searchOf (ev : Evaluator) (team : Team) (protocol : Region) (kind : GoalKind) (left right : Formula) : Search :=
  ⟨ev, team, protocol, ⟨kind, (ev.query left).run, (ev.query right).run⟩⟩

-- What can stop a search: an atom or a name of an operand, or that the evaluation is cancelled.
def Stops (ev : Evaluator) (d : Description) (left right : Formula) (e : Error) : Prop :=
  (left.Causes d ev.sys e ∨ right.Causes d ev.sys e) ∨ ev.cancelled = true ∧ e = .canceled

variable {ev : Evaluator} {d : Description}

/-- Every round is about a part of the remaining states that is not empty, every restart leaves strictly fewer states to be won, and a walk
from the initial states always meets a remaining one, so that the search comes to its end. -/
theorem search_ends (built : d.build = .ok ev.sys) (fraction : ev.options.early = .threshold → ev.options.threshold.Fraction)
    {names : List String} {team : Team} (found : ev.sys.teamOf names = .ok team) (kind : GoalKind) (left right : Formula)
    {states : Region} (known : ev.sys.StateSet states) {m : Memory} (kept : m.Kept ev.sys fun _ => True) :
    ∃ protocol k result n, (Eval.protocol ev.sys team).run m = (.ok protocol, k) ∧
      ((ev.searchOf team protocol kind left right).run (Search.closeStates ev team states)).run k = (result, n) ∧
      (ev.searchOf team protocol kind left right).Ends (Search.closeStates ev team states) k result n ∧
      Outcome (ev.Stops d left right) ev.sys.StateSet result := by
  have wf := d.build_well_formed _ built
  obtain ⟨of, named⟩ := ev.sys.team_of_spec names team found
  obtain ⟨asked, k, gave, still, played⟩ := @safe_protocol ev (fun _ => False) team named m kept
  cases asked with
  | error e => exact played.elim
  | ok protocol =>
      obtain ⟨u, ofToo, same⟩ := played
      have plays : (ev.searchOf team protocol kind left right).Plays := ⟨wf, of, same ▸ wf.protocol_played ofToo⟩
      have halts : ev.cancelled = true → ev.Stops d left right .canceled := fun stopped => .inr ⟨stopped, rfl⟩
      have replies (f : Formula) (causes : ∀ e, f.Causes d ev.sys e → ev.Stops d left right e) :=
        query_replies wf halts (fun mode => .inl (fraction mode).reduces) f (f.faults_causes built causes)
      have safe : (ev.searchOf team protocol kind left right).operands.Safe ev (ev.Stops d left right) :=
        ⟨fun on inside => (replies left (fun _ cause => .inl (.inl cause)) on inside).mono fun _ among => among.known,
          fun on inside => (replies right (fun _ cause => .inl (.inr cause)) on inside).mono fun _ among => among.known⟩
      have closed : ev.sys.StateSet (Search.closeStates ev team states) :=
        @Search.close_state_set (ev.searchOf team protocol kind left right) wf states known
      obtain ⟨result, n, ran, _, outcome, ends⟩ := Search.run_ends plays safe (fun mode => .inl (fraction mode).reduces) closed k still
      exact ⟨protocol, k, result, n, gave, ran, ends, outcome⟩

theorem search_ends_busy_lamp : ∃ (ev : Evaluator) (team : Team) (protocol r : Region) (k n : Memory), busyLamp.build = .ok ev.sys ∧
    ev.sys.teamOf ["hand"] = .ok team ∧ ev.options.semantics = .individual ∧ ev.options.separation = .reach ∧
    ev.options.early = .threshold ∧ ev.options.threshold.Fraction ∧ (Eval.protocol ev.sys team).run {} = (.ok protocol, k) ∧
    ((ev.searchOf team protocol .strong (.constant .true) (.not (.constant .init))).run
      (Search.closeStates ev team ev.sys.init)).run k = (.ok r, n) ∧
    (ev.searchOf team protocol .strong (.constant .true) (.not (.constant .init))).Ends
      (Search.closeStates ev team ev.sys.init) k (.ok r) n := by
  obtain ⟨sys, _, built, _⟩ := busy_lamp_builds
  obtain ⟨team, found⟩ := (System.team_of_iff built ["hand"]).mpr (by decide)
  let o : Options := { variant := .onRequest, semantics := .individual, separation := .reach, early := .threshold }
  have fraction : o.threshold.Fraction := by
    show (Binary64.finite false (2 ^ 52) (-53)).Fraction
    exact ⟨by decide, by decide⟩
  have initial : sys.StateSet sys.init := (busyLamp.build_well_formed sys built).init
  obtain ⟨protocol, k, result, n, gave, ran, ends, outcome⟩ := @search_ends ⟨sys, o, false⟩ busyLamp built (fun _ => fraction)
    ["hand"] team found .strong (.constant .true) (.not (.constant .init)) sys.init initial {} (Memory.empty_kept sys _)
  cases result with
  | error e => simp [Outcome, Stops, Formula.Causes, Formula.atoms, Formula.actors] at outcome
  | ok r => exact ⟨⟨sys, o, false⟩, team, protocol, r, k, n, built, found, rfl, rfl, rfl, fraction, gave, ran, ends⟩

end Evaluator

end Coalition
