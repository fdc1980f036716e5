import Coalition.Proofs.Evaluation.Symbolic
import Coalition.Proofs.Strategy.Contest

-- What a team that sees the whole state can force and cannot avoid is computed on one arena, from whatever belongs to it in memory.

set_option autoImplicit false

namespace Coalition

def System.stateGame (sys : System) (t : Team) : StateGame := ⟨sys, t, sys.protocolOf t⟩

-- What is remembered under the key of a team is its own protocol, and the regions of its own game.
structure Memory.Owns (m : Memory) (sys : System) (t : Team) : Prop where
  protocol : m.Faithful sys t
  unfair : ∀ region, m.forcesUnfair.lookup t.key = some region → region = (sys.stateGame t).unfair.value
  fair : ∀ region, m.permitsFair.lookup t.key = some region → region = (sys.stateGame t).fair.value

theorem Memory.empty_owns (sys : System) (t : Team) : ({} : Memory).Owns sys t :=
  ⟨Memory.empty_faithful sys t, by simp, by simp⟩

theorem Memory.Owns.alike {m n : Memory} {sys : System} {t : Team} (owns : m.Owns sys t) (alike : m.Alike n) : n.Owns sys t := by
  have unfair := congrArg Memory.forcesUnfair alike
  have fair := congrArg Memory.permitsFair alike
  refine ⟨fun region looked => ?_, fun region looked => ?_, fun region looked => ?_⟩
  · exact owns.protocol region (alike.recalled ▸ looked)
  · exact owns.unfair region ((show m.forcesUnfair = n.forcesUnfair from unfair) ▸ looked)
  · exact owns.fair region ((show m.permitsFair = n.permitsFair from fair) ▸ looked)

def Arena.settles {α : Type} (a : Arena α) (ability : Ability) (kind : GoalKind) (left right : Set α) : Set α :=
  match ability with
  | .canForce => a.wins kind left right
  | .cannotAvoid => a.permits kind left right

namespace Eval

variable {α β : Type} {sys : System} {teams : Team → Prop} {m : Memory}

def Serves (sys : System) (teams : Team → Prop) (x : Eval α) (m : Memory) (a : α) : Prop :=
  Ends x m fun b n => b = a ∧ (∀ u, teams u → n.Owns sys u) ∧ n.fair = m.fair ∧ n.answers = m.answers

theorem serves_pure (owns : ∀ u, teams u → m.Owns sys u) (a : α) : Serves sys teams (pure a) m a := ends_pure ⟨rfl, owns, rfl, rfl⟩

theorem serves_bind {x : Eval α} {f : α → Eval β} {a : α} {b : β} (first : Serves sys teams x m a)
    (next : ∀ n, (∀ u, teams u → n.Owns sys u) → Serves sys teams (f a) n b) : Serves sys teams (x >>= f) m b := by
  refine ends_bind first fun c n known => ?_
  obtain ⟨rfl, owns, fair, answers⟩ := known
  exact ends_mono (next n owns) fun d k known => ⟨known.1, known.2.1, known.2.2.1.trans fair, known.2.2.2.trans answers⟩

theorem serves_get {f : Memory → Eval β} {b : β} (next : Serves sys teams (f m) m b) : Serves sys teams (get >>= f) m b := next

theorem serves_counted (owns : ∀ u, teams u → m.Owns sys u) (c : Counted Region) : Serves sys teams (counted c) m c.value := by
  obtain ⟨d, ran⟩ := counted_run c m
  exact ⟨_, _, ran, rfl, fun u listed => ⟨(owns u listed).protocol, (owns u listed).unfair, (owns u listed).fair⟩, rfl, rfl⟩

theorem serves_deciding {x : Eval α} {a : α} (serves : Serves sys teams x m a) : Serves sys teams (deciding x) m a := by
  obtain ⟨b, n, ran, rfl, owns, fair, answers⟩ := serves
  exact ⟨b, _, deciding_run ran, rfl, fun u listed => ⟨(owns u listed).protocol, (owns u listed).unfair, (owns u listed).fair⟩, fair, answers⟩

end Eval

def busyLamp : Description := { lamp with fairness := ["on = yes"] }

theorem busy_lamp_builds : ∃ sys t, busyLamp.build = .ok sys ∧ sys.team ["hand"] = .ok t := by
  have works : (do
      let sys ← busyLamp.build
      let t ← sys.team ["hand"]
      return t.names).toOption = some ["hand"] := by decide +kernel
  obtain ⟨sys, built, rest⟩ := ok_of_bind (ok_of_to_option works)
  obtain ⟨t, coalition, _⟩ := ok_of_bind rest
  exact ⟨sys, t, built, coalition⟩

namespace Evaluator

variable {sys : System} {t : Team} {teams : Team → Prop} {m : Memory}

section

variable (apart : KeyedApart teams) (known : teams t) (owns : ∀ u, teams u → m.Owns sys u)

include apart known owns

theorem owns_learned : (∀ u, teams u → (m.learned sys t).Owns sys u) ∧ (m.learned sys t).fair = m.fair ∧
    (m.learned sys t).answers = m.answers := by
  unfold Memory.learned
  split
  · exact ⟨owns, rfl, rfl⟩
  · refine ⟨fun u listed => ⟨?_, (owns u listed).unfair, (owns u listed).fair⟩, rfl, rfl⟩
    exact Memory.Keeps.lookup_cons (P := fun u region => region = sys.protocolOf u) apart known rfl
      (fun u listed => (owns u listed).protocol) u listed

theorem serves_protocol (named : sys.team t.names = .ok t) : Eval.Serves sys teams (Eval.protocol sys t) m (sys.protocolOf t) := by
  refine Eval.ends_mono (Eval.ends_protocol named) fun region n asked => ?_
  obtain ⟨rfl, rfl⟩ := asked
  exact ⟨(owns t known).protocol.protocol_for, owns_learned apart known owns⟩

theorem serves_unfair (ev : Evaluator) (same : ev.sys = sys) : Eval.Serves sys teams (ev.unfairFor (sys.stateGame t)) m
    (if sys.fairness.isEmpty then .empty else (sys.stateGame t).unfair.value) := by
  subst same
  unfold unfairFor
  cases free : ev.sys.fairness.isEmpty with
  | true => exact Eval.serves_pure owns _
  | false =>
      refine Eval.serves_get ?_
      cases found : m.forcesUnfair.lookup (ev.sys.stateGame t).team.key with
      | some region => exact Eval.ends_pure ⟨(owns t known).unfair region found, owns, rfl, rfl⟩
      | none =>
          obtain ⟨c, ran⟩ := Eval.counted_run (ev.sys.stateGame t).unfair m
          refine ⟨_, _, Eval.run_bind ran, rfl, fun u listed => ⟨(owns u listed).protocol, ?_, (owns u listed).fair⟩, rfl, rfl⟩
          exact Memory.Keeps.lookup_cons (P := fun u region => region = (ev.sys.stateGame u).unfair.value) apart known rfl
            (fun u listed => (owns u listed).unfair) u listed

theorem serves_fair : Eval.Serves sys teams (fairFor (sys.stateGame t)) m (sys.stateGame t).fair.value := by
  unfold fairFor
  refine Eval.serves_get ?_
  cases found : m.permitsFair.lookup (sys.stateGame t).team.key with
  | some region => exact Eval.ends_pure ⟨(owns t known).fair region found, owns, rfl, rfl⟩
  | none =>
      obtain ⟨c, ran⟩ := Eval.counted_run (sys.stateGame t).fair m
      refine ⟨_, _, Eval.run_bind ran, rfl, fun u listed => ⟨(owns u listed).protocol, (owns u listed).unfair, ?_⟩, rfl, rfl⟩
      exact Memory.Keeps.lookup_cons (P := fun u region => region = (sys.stateGame u).fair.value) apart known rfl
        (fun u listed => (owns u listed).fair) u listed

end

theorem full_observation_serves (ev : Evaluator) (wf : ev.sys.WellFormed) (named : ev.sys.team t.names = .ok t) (ability : Ability)
    {goal : Goal} (leftKnown : ev.sys.StateSet goal.left) (rightKnown : ev.sys.StateSet goal.right) :
    ∃ r, (ev.sys.StateSet r ∧ r.members = (ev.sys.stateArena t).settles ability goal.kind goal.left.members goal.right.members) ∧
      ∀ (teams : Team → Prop) m formula, KeyedApart teams → teams t → (∀ u, teams u → m.Owns ev.sys u) →
        Eval.Serves ev.sys teams (ev.fullObservation ⟨formula, ability, t, goal⟩) m r := by
  have proper : (ev.sys.stateGame t).Proper := ⟨wf, (System.team_spec named).1, rfl⟩
  have protocol := fun teams m apart known owns => @serves_protocol ev.sys t teams m apart known owns named
  have unfair := fun teams m apart known owns => @serves_unfair ev.sys t teams m apart known owns ev rfl
  have fair := fun teams m apart known owns => @serves_fair ev.sys t teams m apart known owns
  obtain ⟨kind, left, right⟩ := goal
  cases ability with
  | canForce =>
      have forces := fun kind => StateGame.forces_spec proper kind leftKnown rightKnown (StateGame.known_unfair_spec proper).1
        (StateGame.known_unfair_spec proper).2
      refine ⟨_, forces kind, fun teams m formula apart known owns => ?_⟩
      unfold fullObservation
      refine Eval.serves_bind (protocol teams m apart known owns) fun n owns => ?_
      cases kind with
      | next => exact Eval.serves_bind (unfair teams n apart known owns) fun k owns => Eval.serves_pure owns _
      | strong => exact Eval.serves_bind (unfair teams n apart known owns) fun k owns => Eval.serves_counted owns _
      | weak => exact Eval.serves_bind (unfair teams n apart known owns) fun k owns => Eval.serves_counted owns _
  | cannotAvoid =>
      obtain ⟨goodKnown, goods⟩ := StateGame.fair_spec proper
      have permits := fun kind => StateGame.permits_spec proper kind leftKnown rightKnown goodKnown.reads (.inr goods)
      cases kind with
      | next =>
          refine ⟨_, permits .next, fun teams m formula apart known owns => ?_⟩
          refine Eval.serves_bind (protocol teams m apart known owns) fun n owns => ?_
          exact Eval.serves_bind (fair teams n apart known owns) fun k owns => Eval.serves_pure owns _
      | strong =>
          refine ⟨_, permits .strong, fun teams m formula apart known owns => ?_⟩
          refine Eval.serves_bind (protocol teams m apart known owns) fun n owns => ?_
          exact Eval.serves_bind (fair teams n apart known owns) fun k owns => Eval.serves_counted owns _
      | weak =>
          cases free : ev.sys.fairness.isEmpty with
          | true =>
              -- without constraints the region of fair outcomes is not asked for
              have everywhere := StateGame.permits_spec proper .weak leftKnown rightKnown (Region.reads_univ _) (.inl ⟨rfl, free⟩)
              refine ⟨_, everywhere, fun teams m formula apart known owns => ?_⟩
              unfold fullObservation
              refine Eval.serves_bind (protocol teams m apart known owns) fun n owns => ?_
              rw [free]
              exact Eval.serves_counted owns _
          | false =>
              refine ⟨_, permits .weak, fun teams m formula apart known owns => ?_⟩
              unfold fullObservation
              refine Eval.serves_bind (protocol teams m apart known owns) fun n owns => ?_
              rw [free]
              exact Eval.serves_bind (fair teams n apart known owns) fun k owns => Eval.serves_counted owns _

-- The task is answered by the region from any memory that leaves to the team what is its own.
def Settled (ev : Evaluator) (t : Team) (ability : Ability) (goal : Goal) (r : Region) : Prop :=
  ∀ formula (m : Memory), m.Owns ev.sys t →
    ∃ n, (ev.fullObservation ⟨formula, ability, t, goal⟩).run m = (.ok r, n) ∧ n.Owns ev.sys t

-- The one goal cannot be avoided in the states where the other cannot be forced.
def Opposed (ev : Evaluator) (t : Team) (goal other : Goal) : Prop :=
  ∃ r s, ev.Settled t .cannotAvoid goal r ∧ ev.Settled t .canForce other s ∧ r = ev.sys.statesOutside s

theorem exists_settled_set (ev : Evaluator) (wf : ev.sys.WellFormed) (named : ev.sys.team t.names = .ok t) (ability : Ability)
    {goal : Goal} (leftKnown : ev.sys.StateSet goal.left) (rightKnown : ev.sys.StateSet goal.right) :
    ∃ r, (ev.sys.StateSet r ∧ r.members = (ev.sys.stateArena t).settles ability goal.kind goal.left.members goal.right.members) ∧
      ev.Settled t ability goal r := by
  obtain ⟨r, known, serves⟩ := full_observation_serves ev wf named ability leftKnown rightKnown
  have apart : KeyedApart (· = t) := fun u v here there _ => here.trans there.symm
  refine ⟨r, known, fun formula m owns => ?_⟩
  obtain ⟨_, n, ran, rfl, kept, _⟩ := serves (· = t) m formula apart rfl fun u here => here.symm ▸ owns
  exact ⟨n, ran, kept t rfl⟩

theorem exists_settled (ev : Evaluator) (wf : ev.sys.WellFormed) (named : ev.sys.team t.names = .ok t) (ability : Ability)
    {goal : Goal} (leftKnown : ev.sys.StateSet goal.left) (rightKnown : ev.sys.StateSet goal.right) :
    ∃ r, r.members = (ev.sys.stateArena t).settles ability goal.kind goal.left.members goal.right.members ∧
      ev.Settled t ability goal r := by
  obtain ⟨r, ⟨_, same⟩, settled⟩ := exists_settled_set ev wf named ability leftKnown rightKnown
  exact ⟨r, same, settled⟩

section

variable {ev : Evaluator} (wf : ev.sys.WellFormed) (named : ev.sys.team t.names = .ok t)

include wf named

theorem opposed_of_members {goal other : Goal} (leftKnown : ev.sys.StateSet goal.left) (rightKnown : ev.sys.StateSet goal.right)
    (leftToo : ev.sys.StateSet other.left) (rightToo : ev.sys.StateSet other.right)
    (dual : (ev.sys.stateArena t).permits goal.kind goal.left.members goal.right.members =
      (ev.sys.stateArena t).top \ (ev.sys.stateArena t).wins other.kind other.left.members other.right.members) :
    ev.Opposed t goal other := by
  obtain ⟨r, members, settled⟩ := exists_settled ev wf named .cannotAvoid leftKnown rightKnown
  obtain ⟨s, membersToo, settledToo⟩ := exists_settled ev wf named .canForce leftToo rightToo
  refine ⟨r, s, settled, settledToo, Region.members_injective ?_⟩
  rw [members, Frame.statesOutside, Region.members_diff, membersToo]
  exact dual

variable {p q : Region} (pKnown : ev.sys.StateSet p) (qKnown : ev.sys.StateSet q)

include pKnown

theorem next_opposed : ev.Opposed t ⟨.next, .empty, p⟩ ⟨.next, .empty, ev.sys.statesOutside p⟩ := by
  refine opposed_of_members wf named (Frame.StateSet.empty _) pKnown (Frame.StateSet.empty _) (Frame.StateSet.outside pKnown.reads) ?_
  show (ev.sys.stateArena t).permitNext p.members = (ev.sys.stateArena t).top \ (ev.sys.stateArena t).next (ev.sys.statesOutside p).members
  rw [Frame.statesOutside, Region.members_diff]
  exact Arena.permit_next_dual

theorem eventually_opposed : ev.Opposed t ⟨.strong, ev.sys.statesMask, p⟩ ⟨.weak, ev.sys.statesOutside p, .empty⟩ := by
  have mask := Frame.StateSet.mask ev.sys.toFrame
  have notP := Frame.StateSet.outside pKnown.reads
  refine opposed_of_members wf named mask pKnown notP (Frame.StateSet.empty _) ?_
  have dual := (Arena.permits_until_dual (a := ev.sys.stateArena t) mask.inside pKnown.inside).1
  rw [show (ev.sys.stateArena t).top = ev.sys.statesMask.members from rfl, Set.sdiff_self, Set.empty_inter] at dual
  rw [Frame.statesOutside, Region.members_diff, Region.members_empty]
  exact dual

theorem always_opposed : ev.Opposed t ⟨.weak, p, .empty⟩ ⟨.strong, ev.sys.statesMask, ev.sys.statesOutside p⟩ := by
  have mask := Frame.StateSet.mask ev.sys.toFrame
  have notP := Frame.StateSet.outside pKnown.reads
  refine opposed_of_members wf named pKnown (Frame.StateSet.empty _) mask notP ?_
  have dual := (Arena.permits_until_dual (a := ev.sys.stateArena t) pKnown.inside (Set.empty_subset _)).2
  rw [Set.sdiff_empty, Set.inter_eq_left.mpr Set.sdiff_subset] at dual
  rw [Frame.statesOutside, Region.members_diff, Region.members_empty]
  exact dual

include qKnown

theorem until_opposed :
    ev.Opposed t ⟨.strong, p, q⟩ ⟨.weak, ev.sys.statesOutside q, (ev.sys.statesOutside p).inter (ev.sys.statesOutside q)⟩ ∧
      ev.Opposed t ⟨.weak, p, q⟩ ⟨.strong, ev.sys.statesOutside q, (ev.sys.statesOutside p).inter (ev.sys.statesOutside q)⟩ := by
  have notP := Frame.StateSet.outside pKnown.reads
  have notQ := Frame.StateSet.outside qKnown.reads
  have lost := notP.inter notQ.reads
  obtain ⟨strong, weak⟩ := Arena.permits_until_dual (a := ev.sys.stateArena t) pKnown.inside qKnown.inside
  constructor
  · refine opposed_of_members wf named pKnown qKnown notQ lost (strong.trans ?_)
    simp only [Frame.statesOutside, Region.members_diff, Region.members_inter]
    rfl
  · refine opposed_of_members wf named pKnown qKnown notQ lost (weak.trans ?_)
    simp only [Frame.statesOutside, Region.members_diff, Region.members_inter]
    rfl

end

theorem fair_opposed (ev : Evaluator) (wf : ev.sys.WellFormed) (named : ev.sys.team t.names = .ok t) : ∃ good bad,
    (∀ m : Memory, m.Owns ev.sys t → ∃ n, (fairFor (ev.sys.stateGame t)).run m = (.ok good, n)) ∧
      (∀ m : Memory, m.Owns ev.sys t → ∃ n, (ev.unfairFor (ev.sys.stateGame t)).run m = (.ok bad, n)) ∧
      good = ev.sys.statesOutside bad := by
  have proper : (ev.sys.stateGame t).Proper := ⟨wf, (System.team_spec named).1, rfl⟩
  have apart : KeyedApart (· = t) := fun u v here there _ => here.trans there.symm
  refine ⟨(ev.sys.stateGame t).fair.value, if ev.sys.fairness.isEmpty then .empty else (ev.sys.stateGame t).unfair.value,
    fun m owns => ?_, fun m owns => ?_, Region.members_injective ?_⟩
  · obtain ⟨_, n, ran, rfl, _⟩ := serves_fair (m := m) apart rfl fun u here => here.symm ▸ owns
    exact ⟨n, ran⟩
  · obtain ⟨_, n, ran, rfl, _⟩ := serves_unfair (m := m) apart rfl (fun u here => here.symm ▸ owns) ev rfl
    exact ⟨n, ran⟩
  · rw [(StateGame.fair_spec proper).2, Frame.statesOutside, Region.members_diff]
    exact congrArg (ev.sys.statesMask.members \ ·) (StateGame.known_unfair_spec proper).2.symm

/-- What cannot be avoided is computed apart from what can be forced, and is its dual: for a next step, for something eventually and
always, for both untils, and for fair outcomes. -/
theorem cannot_avoid_dual {d : Description} {ev : Evaluator} (built : d.build = .ok ev.sys) {names : List String}
    (coalition : ev.sys.team names = .ok t) {p q : Region} (pKnown : ev.sys.StateSet p) (qKnown : ev.sys.StateSet q) :
    let not := ev.sys.statesOutside
    ev.Opposed t ⟨.next, .empty, p⟩ ⟨.next, .empty, not p⟩ ∧
      ev.Opposed t ⟨.strong, ev.sys.statesMask, p⟩ ⟨.weak, not p, .empty⟩ ∧
      ev.Opposed t ⟨.weak, p, .empty⟩ ⟨.strong, ev.sys.statesMask, not p⟩ ∧
      ev.Opposed t ⟨.strong, p, q⟩ ⟨.weak, not q, (not p).inter (not q)⟩ ∧
      ev.Opposed t ⟨.weak, p, q⟩ ⟨.strong, not q, (not p).inter (not q)⟩ ∧
      ∃ good bad, (∀ m : Memory, m.Owns ev.sys t → ∃ n, (fairFor (ev.sys.stateGame t)).run m = (.ok good, n)) ∧
        (∀ m : Memory, m.Owns ev.sys t → ∃ n, (ev.unfairFor (ev.sys.stateGame t)).run m = (.ok bad, n)) ∧ good = not bad := by
  have wf := d.build_well_formed _ built
  have named : ev.sys.team t.names = .ok t := (System.team_spec coalition).2.symm ▸ coalition
  obtain ⟨strong, weak⟩ := until_opposed wf named pKnown qKnown
  exact ⟨next_opposed wf named pKnown, eventually_opposed wf named pKnown, always_opposed wf named pKnown, strong, weak,
    fair_opposed ev wf named⟩

theorem cannot_avoid_dual_busy_lamp : ∃ (ev : Evaluator) (t : Team), busyLamp.build = .ok ev.sys ∧ ev.sys.team ["hand"] = .ok t ∧
    let not := ev.sys.statesOutside
    let p := ev.sys.init
    let q := ev.sys.reachable
    ev.Opposed t ⟨.next, .empty, p⟩ ⟨.next, .empty, not p⟩ ∧
      ev.Opposed t ⟨.strong, ev.sys.statesMask, p⟩ ⟨.weak, not p, .empty⟩ ∧
      ev.Opposed t ⟨.weak, p, .empty⟩ ⟨.strong, ev.sys.statesMask, not p⟩ ∧
      ev.Opposed t ⟨.strong, p, q⟩ ⟨.weak, not q, (not p).inter (not q)⟩ ∧
      ev.Opposed t ⟨.weak, p, q⟩ ⟨.strong, not q, (not p).inter (not q)⟩ ∧
      ∃ good bad, (∀ m : Memory, m.Owns ev.sys t → ∃ n, (fairFor (ev.sys.stateGame t)).run m = (.ok good, n)) ∧
        (∀ m : Memory, m.Owns ev.sys t → ∃ n, (ev.unfairFor (ev.sys.stateGame t)).run m = (.ok bad, n)) ∧ good = not bad := by
  obtain ⟨sys, t, built, coalition⟩ := busy_lamp_builds
  have wf := busyLamp.build_well_formed sys built
  refine ⟨⟨sys, {}, false⟩, t, built, coalition, ?_⟩
  exact cannot_avoid_dual built coalition wf.init wf.reachable_state_set

/-- A team that sees the whole state forces a goal from the states where one action chosen for each state forces it against every play. -/
theorem full_observation_decides {d : Description} {ev : Evaluator} (built : d.build = .ok ev.sys) {names : List String}
    (coalition : ev.sys.team names = .ok t) {goal : Goal} (left : ev.sys.StateSet goal.left) (right : ev.sys.StateSet goal.right)
    (formula : Formula) {m : Memory} (owns : m.Owns ev.sys t) :
    ∃ r n, (ev.fullObservation ⟨formula, .canForce, t, goal⟩).run m = (.ok r, n) ∧ ∀ s, ev.sys.Reachable s →
      (s ∈ r.members ↔ ∃ α : Policy, (ev.sys.playGraph .group t α).Forces goal.kind goal.left.members goal.right.members s) := by
  have wf := d.build_well_formed _ built
  obtain ⟨of, same⟩ := System.team_spec coalition
  obtain ⟨r, members, settled⟩ := exists_settled ev wf (same.symm ▸ coalition) .canForce left right
  obtain ⟨n, ran, _⟩ := settled formula m owns
  refine ⟨r, n, ran, fun s reached => ?_⟩
  rw [members]
  exact wf.mem_state_wins of goal.kind left.reads right.reads reached

theorem full_observation_decides_busy_lamp : ∃ (ev : Evaluator) (t : Team), busyLamp.build = .ok ev.sys ∧
    ev.sys.team ["hand"] = .ok t ∧ ∃ r n,
      (ev.fullObservation ⟨lampQuestion, .canForce, t, ⟨.strong, ev.sys.init, ev.sys.reachable⟩⟩).run {} = (.ok r, n) ∧
        ∀ s, ev.sys.Reachable s → (s ∈ r.members ↔
          ∃ α : Policy, (ev.sys.playGraph .group t α).Forces .strong ev.sys.init.members ev.sys.reachable.members s) := by
  obtain ⟨sys, t, built, coalition⟩ := busy_lamp_builds
  have wf := busyLamp.build_well_formed sys built
  refine ⟨⟨sys, {}, false⟩, t, built, coalition, ?_⟩
  exact full_observation_decides built coalition wf.init wf.reachable_state_set lampQuestion (Memory.empty_owns sys t)

end Evaluator

end Coalition
