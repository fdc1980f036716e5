import Coalition.Proofs.Evaluation.FairPath
import Coalition.Proofs.Evaluation.Kept
import Coalition.Proofs.Game.Neutral
import Coalition.Proofs.Model.Constrained

-- Under constraints that hold in all states moves win the same goals and the same paths are fair, so the same formulas hold.

set_option autoImplicit false

namespace Coalition

open Eval

namespace Expression

-- Unless a variable has its name, `TRUE` is the constant.
theorem parse_true (names : Names) (scope : Scope) (unused : names.find? "TRUE" = none) :
    parse names scope "TRUE" = .ok (.constant true) := by
  obtain ⟨word, last, same, isWord, isLast⟩ : ∃ word last : Token, tokens "TRUE".toList = [word, last] ∧
      (word.isEnd = false ∧ word.text = "TRUE") ∧ last.isEnd = true ∧ last.complaint = none := by
    refine ⟨_, _, rfl, ?_, ?_⟩ <;> decide
  have trimmed : Text.trimQuotes "TRUE" = "TRUE" := by decide
  have read : comparison names scope [word, last] = .ok (.constant true, [last]) := by
    simp [comparison, term, bare, at?, advance, isWord, isLast, signs, trimmed, unused, bind, Except.bind, pure, Except.pure]
  unfold parse
  rw [same]
  simp [chain, equivalences, implications, leftChain, moreOperands, unary, at?, atEnd, isWord, isLast, read, complaintSoFar, bind,
    Except.bind, pure, Except.pure]

end Expression

namespace System

variable {sys : System} {constraints : List Region} {t : Team} {protocol : Region} {goal : Goal}

theorem atom_true (wf : sys.WellFormed) (unused : ∀ v ∈ sys.vars, v.name ≠ "TRUE") : sys.atom "TRUE" = .ok sys.statesMask := by
  have none : sys.names.find? "TRUE" = none := by
    unfold Expression.Names.find?
    rw [wf.vars, List.find?_eq_none]
    exact fun v listed => by simpa using unused v listed
  unfold atom compile
  rw [Expression.parse_true _ _ none]
  exact congrArg Except.ok (Region.univ_inter _)

-- The other constraints are those of the system, and some that hold in all states.
structure Neutral (sys : System) (constraints : List Region) : Prop where
  system : sys.WellFormed
  known : ∀ c ∈ constraints, sys.StateSet c
  kept : ∀ c ∈ sys.fairness, c ∈ constraints
  added : ∀ c ∈ constraints, c ∈ sys.fairness ∨ sys.statesMask.members ⊆ c.members

namespace Neutral

variable (neutral : sys.Neutral constraints)

include neutral

theorem under : (sys.under constraints).WellFormed := { neutral.system with fairness := neutral.known }

theorem kept_members : ∀ c ∈ sys.fairness.map (·.members), c ∈ constraints.map (·.members) := by
  intro c listed
  obtain ⟨region, member, rfl⟩ := List.mem_map.mp listed
  exact List.mem_map_of_mem (neutral.kept region member)

theorem added_members : ∀ c ∈ constraints.map (·.members), c ∈ sys.fairness.map (·.members) ∨ sys.statesMask.members ⊆ c := by
  intro c listed
  obtain ⟨region, member, rfl⟩ := List.mem_map.mp listed
  exact (neutral.added region member).imp (fun own => List.mem_map_of_mem own) id

theorem fair_path {s : Valuation} {path : Nat → Valuation} : (sys.under constraints).FairPath s path ↔ sys.FairPath s path := by
  constructor
  · exact fun fair => ⟨fair.start, fair.step, fun c listed => fair.fair c (neutral.kept c listed)⟩
  · refine fun fair => ⟨fair.start, fair.step, fun c listed n => ?_⟩
    obtain own | everywhere := neutral.added c listed
    · exact fair.fair c own n
    · obtain ⟨τ, trans, same, _⟩ := fair.step n
      refine ⟨n, Nat.le_refl n, everywhere ?_⟩
      rw [← same]
      exact (Frame.mem_of_state sys.reads_states_mask (Frame.state_of_state τ)).mpr (neutral.system.trans_states trans)

theorem always_eq {states : Region} (known : sys.StateSet states) :
    ((sys.under constraints).someAlways states).value = (sys.someAlways states).value := by
  have first := neutral.system.some_always_spec known
  have second := neutral.under.some_always_spec (known : (sys.under constraints).StateSet states)
  refine Region.members_injective (Set.ext fun ρ => ?_)
  have state := Frame.state_of_state (f := sys.toFrame) ρ
  have here : ∀ {r : Region}, sys.StateSet r → (ρ ∈ r.members ↔ sys.stateOf ρ ∈ r.members) := fun inside =>
    Frame.mem_of_state inside.reads state.symm
  rw [here first.1, here second.1, first.2, second.2, neutral.system.mem_always state, neutral.under.mem_always state]
  exact exists_congr fun path => and_congr_left fun _ => neutral.fair_path

section

variable (of : t.Of sys)

include of

theorem arena (U : Set Valuation) : ((sys.arena t (sys.protocolOf t)).on U).Neutral (constraints.map (·.members)) where
  kept := neutral.kept_members
  added c listed := by
    refine (neutral.added_members c listed).imp id fun everywhere ρ here => everywhere ?_
    have inside := (neutral.system.protocol_inside of here.1).1
    rw [Frame.movesMask, Region.members_inter] at inside
    exact inside.1
  live := by
    refine Set.subset_empty_iff.mp fun ρ forced => ?_
    obtain ⟨_, τ, trans, _, same, plays⟩ := (neutral.system.mem_protocol of).mp forced.2.1
    obtain ⟨_, nowhere, _⟩ := forced.2.2 τ trans same plays
    exact nowhere

theorem won_eq (goal : Goal) (U : Set Valuation) :
    (sys.under constraints).won t (sys.protocolOf t) goal U = sys.won t (sys.protocolOf t) goal U :=
  (neutral.arena of U).wins_eq _ _ _

theorem winnable_iff (semantics : Semantics) (goal : Goal) (moves : Set Valuation) (s : Valuation) :
    (sys.under constraints).Winnable semantics t (sys.protocolOf t) goal moves s ↔
      sys.Winnable semantics t (sys.protocolOf t) goal moves s := by
  unfold Winnable
  simp only [neutral.won_eq of]
  exact Iff.rfl

theorem state_arena : (sys.stateArena t).Neutral (constraints.map (·.members)) where
  kept := neutral.kept_members
  added := neutral.added_members
  live := by
    refine Set.subset_empty_iff.mp fun s forced => ?_
    obtain ⟨_, ρ, leads, _⟩ := forced
    have nothing : ρ ∈ ((sys.arena t (sys.protocolOf t)).on Set.univ).force ∅ := ⟨trivial, leads⟩
    rw [(neutral.arena of Set.univ).live] at nothing
    exact nothing

theorem settles_eq (ability : Ability) (kind : GoalKind) {left right : Region} (leftKnown : sys.StateSet left)
    (rightKnown : sys.StateSet right) :
    ((sys.under constraints).stateArena t).settles ability kind left.members right.members =
      (sys.stateArena t).settles ability kind left.members right.members := by
  cases ability with
  | canForce => exact (neutral.state_arena of).wins_eq _ _ _
  | cannotAvoid => exact (neutral.state_arena of).permits_eq kind leftKnown.inside rightKnown.inside

end

end Neutral

end System

theorem Memory.Owns.besides {m : Memory} {sys : System} {t : Team} (owns : m.Owns sys t) (counters : Counters) (fair : Option Region)
    (answers : Answers) : Memory.Owns { m with counters, fair, answers } sys t :=
  ⟨owns.protocol, owns.unfair, owns.fair⟩

namespace Evaluator

variable {ev : Evaluator} {constraints : List Region} {teams : Team → Prop} {t : Team}

section

variable (neutral : ev.sys.Neutral constraints) (named : ev.sys.team t.names = .ok t)

include neutral named

theorem solution_neutral (ability : Ability) {goal : Goal} (left : ev.sys.StateSet goal.left) (right : ev.sys.StateSet goal.right) :
    (ev.under constraints).solution t ability goal = ev.solution t ability goal := by
  have of := (System.team_spec named).1
  have first := solution_spec neutral.system named left right ability
  have second := @solution_spec (ev.under constraints) neutral.under t named goal left right ability
  cases sees : ev.options.observability with
  | full =>
      refine Region.members_injective ?_
      rw [second.2.1 sees, first.2.1 sees]
      exact neutral.settles_eq of ability goal.kind left right
  | limited =>
      have wins := first.2.2.1 sees
      have winsToo := second.2.2.1 sees
      refine Region.members_injective (Set.ext fun ρ => ?_)
      rw [wins ρ, winsToo ρ]
      exact neutral.winnable_iff of _ _ _ _

theorem wins_neutral : ev.WinsAlike constraints t (ev.sys.protocolOf t) := by
  intro goal moves left right inside reads
  have of := (System.team_spec named).1
  have played := neutral.system.protocol_played of
  have posed : ev.Posed t (ev.sys.protocolOf t) goal := ⟨neutral.system, of, played, left, right⟩
  have posedToo : (ev.under constraints).Posed t (ev.sys.protocolOf t) goal :=
    ⟨neutral.under, of, ⟨played.inside, played.reached, played.reads⟩, left, right⟩
  refine Region.members_injective ?_
  rw [(filtered_spec posed inside reads).2, (filtered_spec posedToo inside reads).2]
  exact neutral.won_eq of goal _

end

-- Memories of the system and of the one under other constraints: each holds what belongs to the teams there, and the same answers.
structure Parallel (ev : Evaluator) (constraints : List Region) (teams : Team → Prop) (m n : Memory) : Prop where
  owns : ∀ u, teams u → m.Owns ev.sys u
  ownsToo : ∀ u, teams u → n.Owns (ev.sys.under constraints) u
  fair : ∀ fair ∈ m.fair, fair = ev.sys.fairStates.value
  fairToo : ∀ fair ∈ n.fair, fair = ev.sys.fairStates.value
  answers : n.answers = m.answers
  sorted : m.answers.Sorted ev.sys

theorem empty_parallel (ev : Evaluator) (constraints : List Region) (teams : Team → Prop) : ev.Parallel constraints teams {} {} :=
  ⟨fun u _ => Memory.empty_owns _ u, fun u _ => Memory.empty_owns _ u, by simp, by simp, rfl, fun _ listed => by cases listed⟩

theorem parallel_linked (ev : Evaluator) (constraints : List Region) (teams : Team → Prop) :
    ev.sys.Linked (ev.Parallel constraints teams) where
  counts _ _ _ _ related :=
    ⟨fun u known => (related.owns u known).besides _ _ _,
      fun u known => (related.ownsToo u known).besides _ _ _,
      related.fair, related.fairToo, related.answers, related.sorted⟩
  fair _ _ _ _ related :=
    ⟨fun u known => (related.owns u known).besides _ _ _,
      fun u known => (related.ownsToo u known).besides _ _ _,
      by simp, by simp, related.answers, related.sorted⟩
  left _ _ related := related.fair
  right _ _ related := related.fairToo

theorem parallel_recalls (ev : Evaluator) (constraints : List Region) (teams : Team → Prop) :
    ev.sys.Recalls (ev.Parallel constraints teams) where
  same _ _ related := related.answers
  sorted _ _ related := related.sorted
  keeps _ _ _ related sorted :=
    ⟨fun u known => (related.owns u known).besides _ _ _,
      fun u known => (related.ownsToo u known).besides _ _ _,
      related.fair, related.fairToo, rfl, sorted⟩

theorem matches_parallel {α : Type} {P : α → Prop} {x y : Eval α} {a : α} (holds : P a)
    (first : ∀ m : Memory, (∀ u, teams u → m.Owns ev.sys u) → Serves ev.sys teams x m a)
    (second : ∀ n : Memory, (∀ u, teams u → n.Owns (ev.sys.under constraints) u) → Serves (ev.sys.under constraints) teams y n a) :
    Matches (ev.Parallel constraints teams) P x y := by
  refine matches_value holds fun m n related => ?_
  obtain ⟨_, k, ran, rfl, owns, fair, answers⟩ := first m related.owns
  obtain ⟨_, l, ranToo, rfl, ownsToo, fairToo, answersToo⟩ := second n related.ownsToo
  refine ⟨k, l, ran, ranToo, owns, ownsToo, fair ▸ related.fair, fairToo ▸ related.fairToo, ?_, answers ▸ related.sorted⟩
  exact answersToo.trans (related.answers.trans answers.symm)

section

variable (neutral : ev.sys.Neutral constraints) (apart : KeyedApart teams)

include neutral

theorem parallel_twins : ev.sys.Twins constraints (ev.Parallel constraints teams) :=
  ⟨neutral.system, parallel_linked ev constraints teams, fun _ known => neutral.always_eq known⟩

include apart

variable (enumerates : ev.options.observability = .limited → ev.options.variant.Enumerates ∨ ev.options.variant = .onRequest)

include enumerates in
theorem decide_neutral (known : teams t) (named : ev.sys.team t.names = .ok t) (formula : Formula) (ability : Ability) {goal : Goal}
    (left : ev.sys.StateSet goal.left) (right : ev.sys.StateSet goal.right) :
    Matches (ev.Parallel constraints teams) ev.sys.StateSet (ev.decide ⟨formula, ability, t, goal⟩)
      ((ev.under constraints).decide ⟨formula, ability, t, goal⟩) := by
  refine matches_parallel (solution_spec neutral.system named left right ability).1 (fun m owns => ?_) fun n owns => ?_
  · exact decide_serves neutral.system named left right ability enumerates formula apart known owns
  · rw [← solution_neutral neutral named ability left right]
    exact @decide_serves (ev.under constraints) neutral.under t named goal left right ability enumerates teams n formula apart known owns

theorem protocol_neutral (known : teams t) (named : ev.sys.team t.names = .ok t) :
    Matches (ev.Parallel constraints teams) (fun p => ev.sys.PlayedSet p ∧ ev.WinsAlike constraints t p) (Eval.protocol ev.sys t)
      (Eval.protocol (ev.sys.under constraints) t) :=
  matches_parallel ⟨neutral.system.protocol_played (System.team_spec named).1, wins_neutral neutral named⟩
    (fun _ owns => serves_protocol apart known owns named) fun _ owns => serves_protocol apart known owns named

section

variable {f : Formula} (belongs : ∀ names ∈ f.coalitions, ∀ t, ev.sys.teamOf names = .ok t → teams t)

include enumerates belongs

theorem everywhere_neutral :
    ev.Agree (ev.Parallel constraints teams) (ev.everywhere f) ((ev.under constraints).everywhere f) := by
  have valued : ev.Valued constraints (ev.Parallel constraints teams) fun _ _ => True :=
    fun _ _ alike => alike.mono fun _ holds => ⟨holds, trivial⟩
  refine matches_everywhere valued (parallel_twins neutral) f fun g decides task same sets => ?_
  obtain ⟨formula, ability, t, goal⟩ := task
  obtain ⟨aim, aims, -, -, found, -⟩ := sets.aims
  have known : teams t := belongs aim.names (Formula.decided_coalitions (same ▸ decides) aims) t found
  exact decide_neutral neutral apart enumerates known (ev.sys.team_of_spec aim.names t found).2 formula ability sets.left sets.right

theorem query_neutral : (ev.query f).Agree ((ev.under constraints).query f) ev (ev.Parallel constraints teams) := by
  refine query_alike (parallel_twins neutral) (parallel_recalls ev constraints teams) f fun names listed t found => ?_
  have known := belongs names listed t found
  have named := (ev.sys.team_of_spec names t found).2
  constructor
  · rintro _ ⟨formula, ability, u, goal⟩ same left right
    obtain rfl : u = t := same
    exact decide_neutral neutral apart enumerates known named formula ability left right
  · exact fun _ => protocol_neutral neutral apart known named

theorem among_neutral {states : Region} (clear : states.Reads ev.sys.moveBit) :
    ev.Agree (ev.Parallel constraints teams) (ev.satisfyingAmong f states) ((ev.under constraints).satisfyingAmong f states) := by
  rw [among_states neutral.system f clear, @among_states (ev.under constraints) neutral.under f states clear]
  exact (query_neutral neutral apart enumerates belongs).agree (ev.sys.states_of_state_set clear)

theorem on_all_neutral : ev.Agree (ev.Parallel constraints teams) (ev.onAll f) ((ev.under constraints).onAll f) :=
  matches_ite (fun _ => matches_throw .canceled) fun _ => everywhere_neutral neutral apart enumerates belongs

theorem satisfying_neutral : ev.Agree (ev.Parallel constraints teams) (ev.satisfying f) ((ev.under constraints).satisfying f) :=
  matches_ite (fun _ => among_neutral neutral apart enumerates belongs (Frame.StateSet.mask _).moves) fun _ =>
    on_all_neutral neutral apart enumerates belongs

theorem check_neutral : Matches (ev.Parallel constraints teams) (fun _ => True) (ev.check f) ((ev.under constraints).check f) := by
  have answer : ∀ r : Region, Matches (ev.Parallel constraints teams) (fun _ => True) (pure (ev.sys.init.subset r) : Eval Bool)
    (pure (ev.sys.init.subset r)) := fun r => matches_pure trivial
  unfold check
  exact matches_ite (fun _ => matches_bind (among_neutral neutral apart enumerates belongs neutral.system.init.moves) fun r _ => answer r)
    fun _ => matches_bind (on_all_neutral neutral apart enumerates belongs) fun r _ => answer r

end

include enumerates in
theorem after_parallel {asked : List Question} (clear : ∀ q ∈ asked, q.Clear ev.sys) (belongs : ∀ t, ev.sys.TeamIn asked t → teams t) :
    ev.Parallel constraints teams (ev.after asked) ((ev.under constraints).after asked) := by
  refine after_related (R := ev.Parallel constraints teams) (empty_parallel ev constraints teams) fun q listed m n related => ?_
  have inside : ∀ names ∈ q.formula.coalitions, ∀ t, ev.sys.teamOf names = .ok t → teams t := fun names member t found =>
    belongs t ⟨q, listed, names, member, found⟩
  have leaves : ∀ {α : Type} {P : α → Prop} {x y : Eval α}, Matches (ev.Parallel constraints teams) P x y →
      ev.Parallel constraints teams (x.run m).2 (y.run n).2 := by
    intro α P x y alike
    obtain ⟨_, k, l, ran, ranToo, still, _⟩ := alike m n related
    rwa [ran, ranToo]
  cases q with
  | all f => exact leaves (satisfying_neutral neutral apart enumerates inside)
  | initial f => exact leaves (check_neutral neutral apart enumerates inside)
  | among f states => exact leaves (among_neutral neutral apart enumerates inside (clear _ listed))

end

end Evaluator

namespace System

theorem neutral_between {sys : System} (wf : sys.WellFormed) {first last : List Region} (listed : sys.fairness = first ++ last) :
    sys.Neutral (first ++ sys.statesMask :: last) where
  system := wf
  known c member := by
    obtain here | rfl | here : c ∈ first ∨ c = sys.statesMask ∨ c ∈ last := by simpa using member
    · exact wf.fairness c (listed ▸ List.mem_append_left _ here)
    · exact Frame.StateSet.mask _
    · exact wf.fairness c (listed ▸ List.mem_append_right _ here)
  kept c member := by
    rw [listed] at member
    obtain here | here := List.mem_append.mp member
    · exact List.mem_append_left _ here
    · exact List.mem_append_right _ (List.mem_cons_of_mem _ here)
  added c member := by
    obtain here | rfl | here : c ∈ first ∨ c = sys.statesMask ∨ c ∈ last := by simpa using member
    · exact .inl (listed ▸ List.mem_append_left _ here)
    · exact .inr subset_rfl
    · exact .inl (listed ▸ List.mem_append_right _ here)

end System

namespace Evaluator

/-- A constraint `TRUE`, anywhere among the others, changes no result, if every key of a coalition stands for one team and no variable is
named `TRUE`. -/
theorem true_constraint_neutral {d : Description} {sys : System} (built : d.build = .ok sys) {pre post : List String}
    (listed : d.fairness = pre ++ post) (unused : ∀ v ∈ sys.vars, v.name ≠ "TRUE") :
    ∃ sys', (d.constrained (pre ++ "TRUE" :: post)).build = .ok sys' ∧ ∀ (o : Options) (stopped : Bool),
      (o.observability = .limited → o.variant.Enumerates ∨ o.variant = .onRequest) → ∀ (asked : List Question) (f : Formula),
      (∀ q ∈ asked, q.Clear sys) → KeyedApart (sys.TeamIn (asked ++ [.all f])) →
      ((satisfying ⟨sys', o, stopped⟩ f).run (after ⟨sys', o, stopped⟩ asked)).1 =
        ((satisfying ⟨sys, o, stopped⟩ f).run (after ⟨sys, o, stopped⟩ asked)).1 := by
  have wf := d.build_well_formed sys built
  obtain ⟨constraints, rebuilds⟩ := @Description.build_constrained d (pre ++ "TRUE" :: post) sys built
  rw [listed] at constraints
  have first := (List.forall₂_take_append _ pre post constraints.flip).flip
  have last := (List.forall₂_drop_append _ pre post constraints.flip).flip
  have texts := List.rel_append first (.cons (System.atom_true wf unused) last)
  refine ⟨_, rebuilds _ texts, fun o stopped enumerates asked f clear keyed => ?_⟩
  have neutral := System.neutral_between wf (List.take_append_drop pre.length sys.fairness).symm
  let ev : Evaluator := ⟨sys, o, stopped⟩
  have before : ∀ t, sys.TeamIn asked t → sys.TeamIn (asked ++ [.all f]) t := fun t ⟨q, listed, names, coalition, found⟩ =>
    ⟨q, List.mem_append_left _ listed, names, coalition, found⟩
  have here : ∀ names ∈ f.coalitions, ∀ t, sys.teamOf names = .ok t → sys.TeamIn (asked ++ [.all f]) t :=
    fun names coalition t found => ⟨.all f, by simp, names, coalition, found⟩
  have related := @after_parallel ev _ _ neutral keyed enumerates asked clear before
  obtain ⟨_, _, _, ran, ranToo, -, -⟩ := @satisfying_neutral ev _ _ neutral keyed enumerates f here _ _ related
  exact (congrArg Prod.fst ranToo).trans (congrArg Prod.fst ran).symm

theorem true_constraint_neutral_lamp : ∃ (sys sys' : System) (t : Team), lamp.build = .ok sys ∧
    (lamp.constrained ["TRUE"]).build = .ok sys' ∧ sys.teamOf ["hand"] = .ok t ∧
    ((satisfying ⟨sys', {}, false⟩ (.not lampQuestion)).run (after ⟨sys', {}, false⟩ [.all lampQuestion])).1 =
      ((satisfying ⟨sys, {}, false⟩ (.not lampQuestion)).run (after ⟨sys, {}, false⟩ [.all lampQuestion])).1 := by
  obtain ⟨sys, t, built, _, named, _⟩ := lamp_lively
  have works : (do
      let sys ← lamp.build
      return Decidable.decide (∀ v ∈ sys.vars, v.name ≠ "TRUE")).toOption = some true := by decide +kernel
  obtain ⟨_, again, unused⟩ := ok_of_bind (ok_of_to_option works)
  obtain rfl := Except.ok.inj (built.symm.trans again)
  obtain ⟨sys', rebuilt, neutral⟩ := @true_constraint_neutral lamp sys built [] [] rfl (of_decide_eq_true (Except.ok.inj unused))
  have apart : KeyedApart (sys.TeamIn [.all lampQuestion, .all (.not lampQuestion)]) :=
    @System.apart_of_single sys _ ["hand"] (by simp [Question.formula, lampQuestion, Formula.coalitions])
  have same := neutral {} false (fun _ => .inl (by simp [Variant.Enumerates])) [.all lampQuestion] (.not lampQuestion)
    (by simp [Question.Clear]) apart
  exact ⟨sys, sys', t, built, rebuilt, named, same⟩

end Evaluator

end Coalition
