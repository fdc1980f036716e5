import Coalition.Proofs.Evaluation.FullObservation
import Coalition.Proofs.Evaluation.Local
import Coalition.Proofs.Evaluation.Meets

-- What a formula says of the states, operator by operator.

set_option autoImplicit false

namespace Coalition

-- Every atom has a region, and all names are those of agents or groups.
def Formula.Resolves (f : Formula) (sys : System) : Prop :=
  f.Every (fun text => ∃ r, sys.atom text = .ok r) (fun names => ∃ t, sys.teamOf names = .ok t) fun names => ∃ t, sys.teamOf names = .ok t

namespace Evaluator

variable (ev : Evaluator)

-- Where a task is answered yes, decided on all states.
def solution (t : Team) (ability : Ability) (goal : Goal) : Region :=
  match (((ev.choosing .splitFilter).decide ⟨.constant .true, ability, t, goal⟩).run {}).1 with
  | .ok r => r
  | .error _ => .empty

def achieved (ability : Ability) (names : List String) (kind : GoalKind) (left right : Region) : Region :=
  match ev.sys.teamOf names with
  | .ok t => ev.solution t ability ⟨kind, left, right⟩
  | .error _ => .empty

def suspected (sharing : Sharing) (t : Team) (states : Region) : Region :=
  let fair := ev.sys.fairStates.value
  match sharing with
  | .distributed => ev.sys.possible fair t states
  | .everyone => if t.members.isEmpty then .empty else ev.sys.possibleForSome fair t states
  | .common => (ev.sys.possibleByChain (if t.members.isEmpty then .empty else fair) t states).value

def known (certainty : Certainty) (sharing : Sharing) (names : List String) (states : Region) : Region :=
  let possible (states : Region) : Region :=
    match ev.sys.teamOf names with
    | .ok t => ev.suspected sharing t states
    | .error _ => .empty
  match certainty with
  | .possible => possible states
  | .known => ev.sys.statesOutside (possible (ev.sys.statesOutside states))

def truth : Formula → Region
  | .constant value => ev.constant value
  | .atom text => (ev.sys.atom text).toOption.getD .empty
  | .not body => ev.sys.statesOutside (truth body)
  | .binary op left right =>
      let p := truth left
      let q := truth right
      match op with
      | .and => p.inter q
      | .or => p.union q
      | .implies => (ev.sys.statesOutside p).union q
      | .iff => (p.iff q).inter ev.sys.statesMask
  | .path quantifier modality body =>
      let p := truth body
      let not := ev.sys.statesOutside
      let fair := ev.sys.fairStates.value
      match quantifier, modality with
      | .some, .next => ev.sys.someNext fair p
      | .some, .eventually => (ev.sys.someUntil fair ev.sys.statesMask p).value
      | .some, .always => (ev.sys.someAlways p).value
      | .all, .next => not (ev.sys.someNext fair (not p))
      | .all, .eventually => not (ev.sys.someAlways (not p)).value
      | .all, .always => not (ev.sys.someUntil fair ev.sys.statesMask (not p)).value
  | .pathUntil quantifier kind left right =>
      let p := truth left
      let q := truth right
      let not := ev.sys.statesOutside
      let fair := ev.sys.fairStates.value
      let lost := (ev.sys.someUntil fair (not q) ((not p).inter (not q))).value
      match quantifier, kind with
      | .some, .strong => (ev.sys.someUntil fair p q).value
      | .some, .weak => (ev.sys.someUntil fair p q).value.union (ev.sys.someAlways p).value
      | .all, .strong => not (lost.union (ev.sys.someAlways (not q)).value)
      | .all, .weak => not lost
  | .agentKnows certainty agent body => ev.known certainty .distributed [agent] (truth body)
  | .groupKnows certainty sharing names body => ev.known certainty sharing names (truth body)
  | .strategic ability names modality body =>
      let p := truth body
      let not := ev.sys.statesOutside
      if ev.usesDual ability then
        match modality with
        | .next => not (ev.achieved .canForce names .next .empty (not p))
        | .eventually => not (ev.achieved .canForce names .weak (not p) .empty)
        | .always => not (ev.achieved .canForce names .strong ev.sys.statesMask (not p))
      else
        match modality with
        | .next => ev.achieved ability names .next .empty p
        | .eventually => ev.achieved ability names .strong ev.sys.statesMask p
        | .always => ev.achieved ability names .weak p .empty
  | .strategicUntil ability names kind left right =>
      let p := truth left
      let q := truth right
      let not := ev.sys.statesOutside
      if ev.usesDual ability then
        match kind with
        | .strong => not (ev.achieved .canForce names .weak (not q) ((not p).inter (not q)))
        | .weak => not (ev.achieved .canForce names .strong (not q) ((not p).inter (not q)))
      else
        match kind with
        | .strong => ev.achieved ability names .strong p q
        | .weak => ev.achieved ability names .weak p q

section

variable {ev} (wf : ev.sys.WellFormed) {t : Team} (named : ev.sys.team t.names = .ok t) {goal : Goal}
  (left : ev.sys.StateSet goal.left) (right : ev.sys.StateSet goal.right) (ability : Ability)

include wf named left right

theorem exists_solution : ∃ r, ev.sys.StateSet r ∧
    (ev.options.observability = .full →
      r.members = (ev.sys.stateArena t).settles ability goal.kind goal.left.members goal.right.members) ∧
    (ev.options.observability = .limited → ev.Wins t (ev.sys.protocolOf t) goal (ev.sys.protocolOf t).members r) ∧
    ∀ (teams : Team → Prop) m formula, KeyedApart teams → teams t → (∀ u, teams u → m.Owns ev.sys u) →
      Eval.Serves ev.sys teams ((ev.choosing .splitFilter).decide ⟨formula, ability, t, goal⟩) m r := by
  have of := (System.team_spec named).1
  cases sees : ev.options.observability with
  | full =>
      obtain ⟨r, ⟨known, same⟩, serves⟩ := full_observation_serves ev wf named ability left right
      refine ⟨r, known, fun _ => same, (by rintro ⟨⟩), fun teams m formula apart listed owns => ?_⟩
      have whole : (ev.choosing .splitFilter).decide ⟨formula, ability, t, goal⟩ =
          Eval.deciding (ev.fullObservation ⟨formula, ability, t, goal⟩) := by
        unfold Evaluator.decide
        rw [if_pos (by simpa [choosing] using sees)]
        rfl
      rw [whole]
      exact Eval.serves_deciding (serves teams m formula apart listed owns)
  | limited =>
      have posed : (ev.choosing .splitFilter).Posed t (ev.sys.protocolOf t) goal := ⟨wf, of, wf.protocol_played of, left, right⟩
      have decides : ∀ (m : Memory), m.Faithful ev.sys t → ∀ formula,
          Eval.Ends ((ev.choosing .splitFilter).decide ⟨formula, ability, t, goal⟩) m fun r n =>
            ev.Wins t (ev.sys.protocolOf t) goal (ev.sys.protocolOf t).members r ∧ (m.learned ev.sys t).Alike n := by
        intro m faithful formula
        have own := faithful.protocol_for
        have ends := decide_enumerates (ev.choosing .splitFilter) sees (.inl rfl) named (own.symm ▸ posed) formula ability
        rwa [show m.protocolFor (ev.choosing .splitFilter).sys t = _ from own] at ends
      obtain ⟨r, _, _, wins, _⟩ := decides {} (Memory.empty_faithful ev.sys t) (.constant .true)
      refine ⟨r, wins.state_set posed, (by rintro ⟨⟩), fun _ => wins, fun teams m formula apart listed owns => ?_⟩
      refine Eval.ends_mono (decides m (owns t listed).protocol formula) fun s n answered => ?_
      obtain ⟨winsToo, alike⟩ := answered
      obtain ⟨ownsToo, fair, answers⟩ := owns_learned apart listed owns
      exact ⟨winsToo.unique wins, fun u other => (ownsToo u other).alike alike, alike.fair.symm.trans fair, alike.answers.symm.trans answers⟩

theorem solution_spec : ev.sys.StateSet (ev.solution t ability goal) ∧
    (ev.options.observability = .full →
      (ev.solution t ability goal).members = (ev.sys.stateArena t).settles ability goal.kind goal.left.members goal.right.members) ∧
    (ev.options.observability = .limited →
      ev.Wins t (ev.sys.protocolOf t) goal (ev.sys.protocolOf t).members (ev.solution t ability goal)) ∧
    ∀ (teams : Team → Prop) m formula, KeyedApart teams → teams t → (∀ u, teams u → m.Owns ev.sys u) →
      Eval.Serves ev.sys teams ((ev.choosing .splitFilter).decide ⟨formula, ability, t, goal⟩) m (ev.solution t ability goal) := by
  obtain ⟨r, spec⟩ := exists_solution wf named left right ability
  have apart : KeyedApart (· = t) := fun u v here there _ => here.trans there.symm
  obtain ⟨s, n, ran, same, _⟩ := spec.2.2.2 (· = t) {} (.constant .true) apart rfl fun u _ => Memory.empty_owns ev.sys u
  have found : ev.solution t ability goal = r := by
    unfold solution
    rw [ran]
    exact same
  rwa [found]

-- Coalitions that see everything and those whose strategies are enumerated find the solution, whatever else is remembered.
theorem decide_serves (finds : ev.options.observability = .limited → ev.options.variant.Enumerates ∨ ev.options.variant = .onRequest)
    {teams : Team → Prop} {m : Memory} (formula : Formula) (apart : KeyedApart teams) (known : teams t)
    (owns : ∀ u, teams u → m.Owns ev.sys u) :
    Eval.Serves ev.sys teams (ev.decide ⟨formula, ability, t, goal⟩) m (ev.solution t ability goal) := by
  have spec := solution_spec wf named left right ability
  have split := spec.2.2.2 teams m formula apart known owns
  cases sees : ev.options.observability with
  | full =>
      have whole : ev.decide ⟨formula, ability, t, goal⟩ = (ev.choosing .splitFilter).decide ⟨formula, ability, t, goal⟩ := by
        unfold Evaluator.decide
        rw [if_pos sees, if_pos (show (ev.choosing .splitFilter).options.observability = .full from sees)]
        rfl
      exact whole ▸ split
  | limited =>
      obtain enumerates | onRequest := finds sees
      · have own := (owns t known).protocol.protocol_for
        have of := (System.team_spec named).1
        have posed : ev.Posed t (m.protocolFor ev.sys t) goal := ⟨wf, of, own ▸ wf.protocol_played of, left, right⟩
        refine Eval.ends_mono (decide_enumerates ev sees enumerates named posed formula ability) fun s n answered => ?_
        obtain ⟨wins, alike⟩ := answered
        rw [own] at wins
        obtain ⟨ownsToo, fair, answers⟩ := owns_learned apart known owns
        exact ⟨wins.unique (spec.2.2.1 sees), fun u other => (ownsToo u other).alike alike, alike.fair.symm.trans fair,
          alike.answers.symm.trans answers⟩
      · have same : ev.decide ⟨formula, ability, t, goal⟩ = (ev.choosing .splitFilter).decide ⟨formula, ability, t, goal⟩ := by
          have blind : ¬ ev.options.observability = .full := by simp [sees]
          unfold Evaluator.decide
          rw [if_neg blind, if_neg (show ¬ (ev.choosing .splitFilter).options.observability = .full from blind), onRequest]
          rfl
        exact same ▸ split

end

section

variable {ev} (wf : ev.sys.WellFormed) {left right : Region} (leftKnown : ev.sys.StateSet left) (rightKnown : ev.sys.StateSet right)

include wf leftKnown

theorem suspected_state_set {t : Team} (of : t.Of ev.sys) (sharing : Sharing) : ev.sys.StateSet (ev.suspected sharing t left) := by
  have fair := (wf.some_always_spec (.mask _)).1.reads
  cases sharing with
  | distributed => exact (wf.possible_spec of fair leftKnown).1
  | everyone =>
      unfold suspected
      dsimp only
      split
      · exact .empty _
      · exact (wf.possible_for_some_spec of fair leftKnown).1
  | common =>
      unfold suspected
      dsimp only
      split
      · exact (wf.possible_by_chain_spec of (Region.reads_empty _) leftKnown).1
      · exact (wf.possible_by_chain_spec of fair leftKnown).1

theorem known_state_set (certainty : Certainty) (sharing : Sharing) (names : List String) :
    ev.sys.StateSet (ev.known certainty sharing names left) := by
  unfold known
  dsimp only
  cases found : ev.sys.teamOf names with
  | error e =>
      cases certainty with
      | possible => exact .empty _
      | known => exact .outside (Region.reads_empty _)
  | ok t =>
      have of := (ev.sys.team_of_spec names t found).1
      cases certainty with
      | possible => exact suspected_state_set wf leftKnown of sharing
      | known => exact .outside (suspected_state_set wf (.outside leftKnown.reads) of sharing).reads

include rightKnown

theorem achieved_state_set (ability : Ability) (names : List String) (kind : GoalKind) :
    ev.sys.StateSet (ev.achieved ability names kind left right) := by
  unfold achieved
  cases found : ev.sys.teamOf names with
  | error e => exact .empty _
  | ok t => exact (solution_spec wf (ev.sys.team_of_spec names t found).2 leftKnown rightKnown ability).1

end

section

variable {ev}

theorem truth_aim {f : Formula} {aim : Aim} (aims : f.aim? = some aim) (direct : ev.usesDual aim.ability = false) :
    ev.truth f = ev.achieved aim.ability aim.names aim.kind (ev.truth aim.left) (ev.truth aim.right) := by
  have plays : ¬ ev.usesDual aim.ability = true := by simp [direct]
  cases f <;> try cases aims
  · rename_i modality body
    cases modality <;> exact if_neg plays
  · rename_i kind left right
    cases kind <;> exact if_neg plays

-- A formula says what the one says that it comes to.
theorem truth_spelled (f : Formula) : ev.truth (f.spelled ev.usesDual) = ev.truth f := by
  have forces : ¬ ev.usesDual .canForce = true := by simp [usesDual]
  cases f with
  | constant value => rfl
  | atom text => rfl
  | not body => rfl
  | binary op left right => cases op <;> rfl
  | path quantifier modality body => cases quantifier <;> cases modality <;> rfl
  | pathUntil quantifier kind left right => cases quantifier <;> cases kind <;> rfl
  | agentKnows certainty agent body => cases certainty <;> rfl
  | groupKnows certainty sharing names body => cases certainty <;> rfl
  | strategic ability names modality body =>
      rw [Formula.spelled]
      split
      · rename_i uses
        cases modality <;> simp only [truth, Modality.dual, if_pos uses, if_neg forces]
      · rfl
  | strategicUntil ability names kind left right =>
      rw [Formula.spelled]
      split
      · rename_i uses
        cases kind <;> simp only [truth, Until.dual, if_pos uses, if_neg forces]
      · rfl

theorem truth_built (wf : ev.sys.WellFormed) :
    Formula.Built ev.usesDual (fun f => ev.sys.StateSet (ev.truth f)) fun f => ev.sys.StateSet (ev.truth f) := by
  have fair := (wf.some_always_spec (.mask _)).1.reads
  exact {
    forces := rfl
    whole := fun f p => by rwa [← truth_spelled f]
    constant := constant_state_set wf
    atom := fun text => by
      show ev.sys.StateSet ((ev.sys.atom text).toOption.getD .empty)
      cases found : ev.sys.atom text with
      | error e => exact .empty _
      | ok r => exact wf.atom_spec text r found
    not := fun _ p => .outside p.reads
    and := fun _ _ p q => p.inter q.reads
    or := fun _ _ p q => p.union q
    iff := fun _ _ p q => (Frame.StateSet.mask _).within (p.reads.iff q.reads)
    next := fun _ p => (wf.some_next_spec fair p).1
    always := fun _ p => (wf.some_always_spec p).1
    strong := fun _ _ p q => (wf.some_until_spec fair p.reads q).1
    agent := fun name _ p => known_state_set wf p .possible .distributed [name]
    group := fun sharing names _ p => known_state_set wf p .possible sharing names
    aims := fun _ _ aims direct p q => truth_aim aims direct ▸ achieved_state_set wf p q _ _ _ }

end

theorem truth_state_set {ev : Evaluator} (wf : ev.sys.WellFormed) (f : Formula) : ev.sys.StateSet (ev.truth f) := (truth_built wf).all f

section

variable {sys : System} {o u : Options} {c d : Bool} (wf : sys.WellFormed) (sees : o.observability = u.observability)
  (semantics : o.semantics = u.semantics)

include wf sees semantics

theorem achieved_congr (ability : Ability) (names : List String) (kind : GoalKind) {left right : Region} (leftKnown : sys.StateSet left)
    (rightKnown : sys.StateSet right) :
    (⟨sys, o, c⟩ : Evaluator).achieved ability names kind left right = (⟨sys, u, d⟩ : Evaluator).achieved ability names kind left right := by
  unfold achieved
  dsimp only
  cases found : sys.teamOf names with
  | error e => rfl
  | ok t =>
      have named := (sys.team_of_spec names t found).2
      have first := @solution_spec ⟨sys, o, c⟩ wf t named ⟨kind, left, right⟩ leftKnown rightKnown ability
      have second := @solution_spec ⟨sys, u, d⟩ wf t named ⟨kind, left, right⟩ leftKnown rightKnown ability
      cases mode : o.observability with
      | full => exact Region.members_injective ((first.2.1 mode).trans (second.2.1 (sees ▸ mode)).symm)
      | limited =>
          have wins := first.2.2.1 mode
          have winsToo := second.2.2.1 (sees ▸ mode)
          unfold Wins at wins winsToo
          dsimp only at wins winsToo
          rw [← semantics] at winsToo
          exact Region.members_injective (Set.ext fun ρ => (wins ρ).trans (winsToo ρ).symm)

theorem truth_congr (f : Formula) : (⟨sys, o, c⟩ : Evaluator).truth f = (⟨sys, u, d⟩ : Evaluator).truth f := by
  have dual : ∀ ability, (⟨sys, o, c⟩ : Evaluator).usesDual ability = (⟨sys, u, d⟩ : Evaluator).usesDual ability := by
    intro ability
    unfold usesDual
    rw [sees]
  have achieved := @achieved_congr sys o u c d wf sees semantics
  have known : ∀ g, sys.StateSet ((⟨sys, u, d⟩ : Evaluator).truth g) := @truth_state_set ⟨sys, u, d⟩ wf
  have mask := Frame.StateSet.mask sys.toFrame
  have empty := Frame.StateSet.empty sys.toFrame
  induction f with
  | constant => rfl
  | atom => rfl
  | not body ih => exact congrArg sys.statesOutside ih
  | binary op left right leftIh rightIh => simp only [truth, leftIh, rightIh]
  | path quantifier modality body ih => simp only [truth, ih]
  | pathUntil quantifier kind left right leftIh rightIh => simp only [truth, leftIh, rightIh]
  | agentKnows certainty agent body ih => simp only [truth, ih]; rfl
  | groupKnows certainty sharing names body ih => simp only [truth, ih]; rfl
  | strategic ability names modality body ih =>
      have p := known body
      have notP := Frame.StateSet.outside p.reads
      simp only [truth, ih, dual, achieved _ _ _ empty p, achieved _ _ _ mask p, achieved _ _ _ p empty, achieved _ _ _ empty notP,
        achieved _ _ _ mask notP, achieved _ _ _ notP empty]
  | strategicUntil ability names kind left right leftIh rightIh =>
      have p := known left
      have q := known right
      have notP := Frame.StateSet.outside p.reads
      have notQ := Frame.StateSet.outside q.reads
      simp only [truth, leftIh, rightIh, dual, achieved _ _ _ p q, achieved _ _ _ notQ (notP.inter notQ.reads)]

end

end Evaluator

end Coalition
