import Coalition.Proofs.Evaluation.QueryAlike
import Coalition.Proofs.Evaluation.Variants
import Coalition.Proofs.Evaluation.Agreement
import Coalition.Proofs.Strategy.StateSets

-- What evaluations remember and find are well-formed sets of states, with any options.

set_option autoImplicit false

namespace Coalition

open Eval

structure EncodingEntry.Proper (entry : EncodingEntry) (sys : System) : Prop where
  encoding : ∃ (t u : Team) (moves : Region), t.Of sys ∧ u.Of sys ∧ sys.PlayedSet moves ∧
    Encoding.ofMoves sys t (sys.equivalenceOf u) moves = .ok entry.encoding
  unfair : ∀ unfair ∈ entry.unfair, unfair = entry.encoding.unfair.value

-- What evaluations of a system leave. Teams with keys of their own find their own protocols.
structure Memory.Kept (m : Memory) (sys : System) (teams : Team → Prop) : Prop where
  sound : m.Sound sys
  own : KeyedApart teams → ∀ t, teams t → m.Faithful sys t
  relations : ∀ entry ∈ m.recalled.relations, ∃ t : Team, t.Of sys ∧ entry.2 = sys.equivalenceOf t
  permitsFair : ∀ entry ∈ m.permitsFair, sys.StateSet entry.2
  forcesUnfair : ∀ entry ∈ m.forcesUnfair, sys.StateSet entry.2
  encodings : ∀ entry ∈ m.encodings, entry.2.Proper sys
  answers : m.answers.Sorted sys

def KeptAlike (sys : System) (teams : Team → Prop) (m n : Memory) : Prop := m.Alike n ∧ m.Kept sys teams

theorem lookup_listed {β : Type} {entries : List (String × β)} {key : String} {value : β} (found : entries.lookup key = some value) :
    (key, value) ∈ entries := by
  obtain ⟨before, _, listed, _⟩ := List.lookup_eq_some_iff.mp found
  simp [listed]

namespace Memory

variable {m n : Memory} {sys : System} {teams : Team → Prop} {t : Team}

theorem empty_kept (sys : System) (teams : Team → Prop) : ({} : Memory).Kept sys teams :=
  ⟨empty_sound sys, fun _ t _ => empty_faithful sys t, by simp, by simp, by simp, by simp, fun _ listed => by cases listed⟩

theorem Alike.permits_fair (alike : m.Alike n) : m.permitsFair = n.permitsFair := by
  have same := congrArg Memory.permitsFair alike
  exact same

theorem Alike.forces_unfair (alike : m.Alike n) : m.forcesUnfair = n.forcesUnfair := by
  have same := congrArg Memory.forcesUnfair alike
  exact same

theorem Alike.encodings (alike : m.Alike n) : m.encodings = n.encodings := by
  have same := congrArg Memory.encodings alike
  exact same

theorem Kept.count (kept : m.Kept sys teams) (c : Counters) : ({ m with counters := c } : Memory).Kept sys teams :=
  ⟨⟨kept.sound.protocols, kept.sound.fair⟩, kept.own, kept.relations, kept.permitsFair, kept.forcesUnfair, kept.encodings, kept.answers⟩

theorem Kept.alike (kept : m.Kept sys teams) (alike : m.Alike n) : n.Kept sys teams :=
  have sound := kept.sound.alike alike
  ⟨sound, fun apart t known region found => kept.own apart t known region (alike.recalled ▸ found), alike.recalled ▸ kept.relations,
    alike.permits_fair ▸ kept.permitsFair, alike.forces_unfair ▸ kept.forcesUnfair, alike.encodings ▸ kept.encodings,
    alike.answers ▸ kept.answers⟩

theorem Kept.learned (kept : m.Kept sys teams) (of : t.Of sys) (known : teams t) : (m.learned sys t).Kept sys teams := by
  have sound := kept.sound.learned of
  have own : KeyedApart teams → ∀ u, teams u → (m.learned sys t).Faithful sys u := by
    intro apart u listed region found
    unfold Memory.learned at found
    split at found
    · exact kept.own apart u listed region found
    · exact Keeps.lookup_cons (P := fun u region => region = sys.protocolOf u) apart known rfl (kept.own apart) u listed region found
  unfold Memory.learned at sound own ⊢
  split
  · exact kept
  · rename_i fresh
    simp only [fresh] at sound own
    exact ⟨sound, own, kept.relations, kept.permitsFair, kept.forcesUnfair, kept.encodings, kept.answers⟩

end Memory

theorem kept_linked (sys : System) (teams : Team → Prop) : sys.Linked (KeptAlike sys teams) where
  counts m n c d related := ⟨related.1, related.2.count c⟩
  fair m n c d related := by
    have same := congrArg (fun k : Memory => { k with fair := some sys.fairStates.value }) related.1
    have kept := related.2.count c
    exact ⟨same, ⟨kept.sound.protocols, by simp⟩, kept.own, kept.relations, kept.permitsFair, kept.forcesUnfair, kept.encodings, kept.answers⟩
  left _ _ related := related.2.sound.fair
  right _ _ related := (related.2.sound.alike related.1).fair

theorem kept_recalls (sys : System) (teams : Team → Prop) : sys.Recalls (KeptAlike sys teams) where
  same _ _ related := related.1.answers.symm
  sorted _ _ related := related.2.answers
  keeps m n a related sorted := by
    have same := congrArg (fun k : Memory => { k with answers := a }) related.1
    have kept := related.2
    exact ⟨same, ⟨kept.sound.protocols, kept.sound.fair⟩, kept.own, kept.relations, kept.permitsFair, kept.forcesUnfair, kept.encodings, sorted⟩

namespace Evaluator

variable {ev : Evaluator} {teams : Team → Prop} {t : Team}

abbrev Keeps (ev : Evaluator) (teams : Team → Prop) {α : Type} (P : α → Prop) (x : Eval α) : Prop :=
  Matches (KeptAlike ev.sys teams) P x x

section

variable (known : teams t) (named : ev.sys.team t.names = .ok t)

include named

section

include known

theorem keeps_protocol : ev.Keeps teams (fun p => ∃ u : Team, u.Of ev.sys ∧ p = ev.sys.protocolOf u) (Eval.protocol ev.sys t) := by
  have of := (System.team_spec named).1
  intro m n related
  obtain ⟨p, k, here, rfl, rfl⟩ := ends_protocol (m := m) named
  obtain ⟨q, l, there, rfl, rfl⟩ := ends_protocol (m := n) named
  rw [related.1.protocol_for ev.sys t] at there
  exact ⟨_, _, _, here, there, ⟨related.1.learned ev.sys t, related.2.learned of known⟩, fun p same =>
    Except.ok.inj same ▸ related.2.sound.protocol_for of⟩

end

theorem keeps_equivalence : ev.Keeps teams (fun r => ∃ u : Team, u.Of ev.sys ∧ r = ev.sys.equivalenceOf u) (Eval.equivalence ev.sys t) := by
  have of := (System.team_spec named).1
  unfold Eval.equivalence
  refine matches_get fun m n related => ?_
  rw [← related.1.recalled]
  have asked : Yields (m.recalled.equivalence ev.sys t.names) fun entry => (∃ u : Team, u.Of ev.sys ∧ entry.1 = ev.sys.equivalenceOf u) ∧
      entry.2.protocols = m.recalled.protocols ∧ ∀ e ∈ entry.2.relations, ∃ u : Team, u.Of ev.sys ∧ e.2 = ev.sys.equivalenceOf u := by
    intro entry found
    unfold Recall.equivalence at found
    cases listed : m.recalled.relations.lookup (teamKey t.names) with
    | some region =>
        simp only [listed] at found
        cases found
        exact ⟨related.2.relations _ (lookup_listed listed), rfl, related.2.relations⟩
    | none =>
        simp only [listed, named] at found
        cases found
        exact ⟨⟨t, of, rfl⟩, rfl, List.forall_mem_cons.mpr ⟨⟨t, of, rfl⟩, related.2.relations⟩⟩
  refine matches_bind (matches_of_except asked) fun entry ⟨own, protocols, relations⟩ => ?_
  refine matches_bind (matches_modify fun k l still => ?_) fun _ _ => matches_pure own
  have same := congrArg (fun k : Memory => { k with recalled := entry.2 }) still.1
  have kept := still.2
  exact ⟨same, ⟨fun e listed => related.2.sound.protocols e (protocols ▸ listed), kept.sound.fair⟩,
    fun apart u one region found => related.2.own apart u one region (protocols ▸ found), relations, kept.permitsFair, kept.forcesUnfair,
    kept.encodings, kept.answers⟩

end

section

variable {game : StateGame} (same : game.sys = ev.sys) (plays : game.Plays)

include same plays

theorem keeps_unfair_for : ev.Keeps teams ev.sys.StateSet (ev.unfairFor game) := by
  have linked := kept_linked ev.sys teams
  have unfair := same ▸ StateGame.unfair_state_set plays
  unfold unfairFor
  split
  · exact matches_pure (.empty _)
  · refine matches_get fun m n related => ?_
    rw [← related.1.forces_unfair]
    cases found : m.forcesUnfair.lookup game.team.key with
    | some region => exact matches_pure (related.2.forcesUnfair _ (lookup_listed found))
    | none =>
        refine matches_bind (matches_counted linked rfl unfair) fun region inside => ?_
        refine matches_bind (matches_modify fun k l still => ?_) fun _ _ => matches_pure inside
        have alike := congrArg (fun k : Memory => { k with forcesUnfair := (game.team.key, region) :: k.forcesUnfair }) still.1
        have kept := still.2
        refine ⟨?_, ⟨kept.sound.protocols, kept.sound.fair⟩, kept.own, kept.relations, kept.permitsFair,
          List.forall_mem_cons.mpr ⟨inside, kept.forcesUnfair⟩, kept.encodings, kept.answers⟩
        exact alike

theorem keeps_fair_for : ev.Keeps teams ev.sys.StateSet (fairFor game) := by
  have linked := kept_linked ev.sys teams
  have fair := same ▸ StateGame.fair_state_set plays
  unfold fairFor
  refine matches_get fun m n related => ?_
  rw [← related.1.permits_fair]
  cases found : m.permitsFair.lookup game.team.key with
  | some region => exact matches_pure (related.2.permitsFair _ (lookup_listed found))
  | none =>
      refine matches_bind (matches_counted linked rfl fair) fun region inside => ?_
      refine matches_bind (matches_modify fun k l still => ?_) fun _ _ => matches_pure inside
      have alike := congrArg (fun k : Memory => { k with permitsFair := (game.team.key, region) :: k.permitsFair }) still.1
      have kept := still.2
      refine ⟨?_, ⟨kept.sound.protocols, kept.sound.fair⟩, kept.own, kept.relations,
        List.forall_mem_cons.mpr ⟨inside, kept.permitsFair⟩, kept.forcesUnfair, kept.encodings, kept.answers⟩
      exact alike

end

section

variable (wf : ev.sys.WellFormed) (known : teams t) (named : ev.sys.team t.names = .ok t) {goal : Goal} (left : ev.sys.StateSet goal.left)
  (right : ev.sys.StateSet goal.right) (formula : Formula) (ability : Ability)

include wf known named left right

theorem keeps_full_observation : ev.Keeps teams ev.sys.StateSet (ev.fullObservation ⟨formula, ability, t, goal⟩) := by
  have linked := kept_linked ev.sys teams
  obtain ⟨kind, p, q⟩ := goal
  unfold fullObservation
  refine matches_bind (keeps_protocol known named) fun protocol ⟨u, of, same⟩ => ?_
  have plays : StateGame.Plays ⟨ev.sys, t, protocol⟩ := ⟨wf, same ▸ wf.protocol_played of⟩
  have unfair := @keeps_unfair_for ev teams ⟨ev.sys, t, protocol⟩ rfl plays
  have fair := @keeps_fair_for ev teams ⟨ev.sys, t, protocol⟩ rfl plays
  dsimp only
  cases ability <;> cases kind
  · exact matches_bind unfair fun _ bad => matches_pure (StateGame.force_next_state_set plays right bad)
  · exact matches_bind unfair fun _ bad => matches_counted linked rfl (StateGame.force_strong_state_set plays left right bad)
  · exact matches_bind unfair fun _ bad => matches_counted linked rfl (StateGame.force_weak_state_set plays left right bad)
  · exact matches_bind fair fun _ good => matches_pure (StateGame.permit_next_state_set plays right good.reads)
  · exact matches_bind fair fun _ good => matches_counted linked rfl (StateGame.permit_strong_state_set plays left right good.reads)
  · have weak := fun (good : Region) (reads : good.Reads ev.sys.stateBit) =>
      matches_counted linked rfl (StateGame.permit_weak_state_set plays left right reads)
    exact matches_ite (fun _ => matches_bind fair fun good inside => weak good inside.reads) fun _ =>
      matches_bind (matches_pure (Region.reads_univ _)) weak

end

def encodeAs (ev : Evaluator) (key : String) (t : Team) (moves : Region) : Eval (Option EncodingEntry) := do
  let before ← get
  let equivalence ← Eval.equivalence ev.sys t
  match Encoding.ofMoves ev.sys t equivalence moves with
  | .error e =>
      set before
      throw e
  | .ok encoding =>
      .count .symbolicEncodings 1
      .count .strategyVariables encoding.bits.length
      modify fun m => { m with encodings := (key, ⟨encoding, none⟩) :: m.encodings }
      return some ⟨encoding, none⟩

theorem encoding_for_eq (task : Task) : ev.encodingFor task = (do
    match (← get).encodings.lookup (ev.encodingKey task) with
    | some entry => pure (some entry)
    | none =>
        let protocol ← Eval.protocol ev.sys task.team
        if ev.options.variant = .symbolicFiltered then
          let moves ← ev.winningMoves task.team protocol task.goal protocol
          if moves.isEmpty then pure none else ev.encodeAs (ev.encodingKey task) task.team moves
        else ev.encodeAs (ev.encodingKey task) task.team protocol) := by
  unfold encodingFor encodeAs
  dsimp only
  refine congrArg (get >>= ·) (funext fun m => ?_)
  cases m.encodings.lookup (ev.encodingKey task) with
  | some entry => rfl
  | none =>
      refine congrArg (Eval.protocol ev.sys task.team >>= ·) (funext fun protocol => ?_)
      by_cases filtered : ev.options.variant = .symbolicFiltered
      · rw [if_pos filtered, if_pos filtered, decide_eq_true filtered]
        rfl
      · rw [if_neg filtered, if_neg filtered, decide_eq_false filtered, pure_bind]
        rfl

section

variable {moves : Region} (key : String)

theorem keeps_remember {entry : EncodingEntry} (proper : entry.Proper ev.sys)
    (keep : List (String × EncodingEntry) → List (String × EncodingEntry)) (fewer : ∀ entries, keep entries ⊆ entries) :
    ev.Keeps teams (fun _ => True) (modify fun m : Memory => { m with encodings := (key, entry) :: keep m.encodings }) := by
  refine matches_modify fun k l still => ?_
  have alike := congrArg (fun k : Memory => { k with encodings := (key, entry) :: keep k.encodings }) still.1
  have kept := still.2
  refine ⟨?_, ⟨kept.sound.protocols, kept.sound.fair⟩, kept.own, kept.relations, kept.permitsFair, kept.forcesUnfair,
    List.forall_mem_cons.mpr ⟨proper, fun e listed => kept.encodings e (fewer _ listed)⟩, kept.answers⟩
  exact alike

theorem keeps_encode_as (named : ev.sys.team t.names = .ok t) (played : ev.sys.PlayedSet moves) :
    ev.Keeps teams (fun found => ∀ entry ∈ found, entry.Proper ev.sys) (ev.encodeAs key t moves) := by
  have linked := kept_linked ev.sys teams
  have of := (System.team_spec named).1
  unfold encodeAs
  refine matches_get fun m n before => matches_bind (keeps_equivalence named) fun equivalence ⟨u, ofU, same⟩ => ?_
  cases encoded : Encoding.ofMoves ev.sys t equivalence moves with
  | error e =>
      refine matches_bind (P := fun _ => True) (fun _ _ _ => ?_) fun _ _ => matches_throw e
      exact ⟨.ok (), m, n, rfl, rfl, before, fun _ _ => trivial⟩
  | ok encoding =>
      have proper : EncodingEntry.Proper ⟨encoding, none⟩ ev.sys := ⟨⟨t, u, moves, of, ofU, played, same ▸ encoded⟩, nofun⟩
      refine matches_bind (matches_count linked _ _) fun _ _ => matches_bind (matches_count linked _ _) fun _ _ => ?_
      refine matches_bind (keeps_remember key proper id fun _ => List.Subset.refl _) fun _ _ => matches_pure fun _ same => ?_
      exact Option.some.inj same ▸ proper

theorem keeps_encoded_unfair {entry : EncodingEntry} (proper : entry.Proper ev.sys) :
    ev.Keeps teams (fun unfair => unfair = entry.encoding.unfair.value) (encodedUnfair key entry) := by
  have linked := kept_linked ev.sys teams
  unfold encodedUnfair
  cases found : entry.unfair with
  | some unfair => exact matches_pure (proper.unfair unfair found)
  | none =>
      refine matches_bind (P := fun unfair => unfair = entry.encoding.unfair.value) (matches_counted linked rfl rfl) fun unfair same => ?_
      have known : EncodingEntry.Proper { entry with unfair := some unfair } ev.sys :=
        ⟨proper.encoding, fun _ remembered => Option.some.inj remembered ▸ same⟩
      exact matches_bind (keeps_remember key known _ fun _ => List.filter_subset_self _) fun _ _ => matches_pure same

end

section

variable (wf : ev.sys.WellFormed) (known : teams t) (named : ev.sys.team t.names = .ok t) {goal : Goal} (left : ev.sys.StateSet goal.left)
  (right : ev.sys.StateSet goal.right) (formula : Formula) (ability : Ability)

include wf known named left right

theorem keeps_encoding_for :
    ev.Keeps teams (fun found => ∀ entry ∈ found, entry.Proper ev.sys) (ev.encodingFor ⟨formula, ability, t, goal⟩) := by
  have linked := kept_linked ev.sys teams
  rw [encoding_for_eq]
  generalize ev.encodingKey ⟨formula, ability, t, goal⟩ = key
  refine matches_get fun m n related => ?_
  rw [← related.1.encodings]
  cases found : m.encodings.lookup key with
  | some entry => exact matches_pure fun _ same => Option.some.inj same ▸ related.2.encodings _ (lookup_listed found)
  | none =>
      refine matches_bind (keeps_protocol known named) fun protocol ⟨w, ofToo, same⟩ => ?_
      have posed : ev.Posed t protocol goal := ⟨wf, (System.team_spec named).1, same ▸ wf.protocol_played ofToo, left, right⟩
      refine matches_ite (fun _ => ?_) fun _ => keeps_encode_as key named posed.played
      refine matches_bind (matches_counted linked rfl (filtered_played posed (Set.Subset.refl _) posed.played.reads)) fun moves played => ?_
      exact matches_ite (fun _ => matches_pure nofun) fun _ => keeps_encode_as key named played

theorem keeps_symbolic : ev.Keeps teams ev.sys.StateSet (ev.symbolic ⟨formula, ability, t, goal⟩) := by
  have linked := kept_linked ev.sys teams
  unfold symbolic
  refine matches_bind (keeps_encoding_for wf known named left right formula ability) fun found proper => ?_
  cases found with
  | none => exact matches_pure (.empty _)
  | some entry =>
      refine matches_bind (keeps_encoded_unfair _ (proper entry rfl)) fun unfair same => ?_
      obtain ⟨w, u, moves, of, ofToo, played, encoded⟩ := (proper entry rfl).encoding
      exact matches_counted linked rfl (same ▸ Encoding.finds_state_set wf of ofToo played left right _ encoded)

theorem keeps_decide : ev.Keeps teams ev.sys.StateSet (ev.decide ⟨formula, ability, t, goal⟩) := by
  have linked := kept_linked ev.sys teams
  have of := (System.team_spec named).1
  have solves : ∀ x : Eval Region, (∀ m : Memory, ev.Posed t (m.protocolFor ev.sys t) goal → ev.Solves t goal x m) →
      ev.Keeps teams ev.sys.StateSet x := by
    intro x solved m n related
    have posed : ev.Posed t (m.protocolFor ev.sys t) goal := posed_protocol wf of related.2.sound left right
    have same := related.1.protocol_for ev.sys t
    obtain ⟨r, k, here, wins, alike⟩ := solved m posed
    obtain ⟨s, l, there, winsToo, alikeToo⟩ := solved n (same.symm ▸ posed)
    rw [same] at winsToo
    obtain rfl : r = s := wins.unique winsToo
    refine ⟨_, k, l, here, there, ⟨?_, (related.2.learned of known).alike alike⟩, fun _ found => Except.ok.inj found ▸ wins.state_set posed⟩
    exact alike.symm.trans ((related.1.learned ev.sys t).trans alikeToo)
  unfold Evaluator.decide
  refine matches_deciding linked (matches_ite (fun _ => ?_) fun _ => ?_)
  · exact keeps_full_observation wf known named left right formula ability
  · cases ev.options.variant with
    | splitFilter => exact solves _ fun _ => split_filter_solves named
    | filterSplit => exact solves _ fun _ => filter_split_solves named
    | filterSplitFilter => exact solves _ fun _ => filter_split_filter_solves named
    | symbolic => exact keeps_symbolic wf known named left right formula ability
    | symbolicFiltered => exact keeps_symbolic wf known named left right formula ability
    | onRequest => exact solves _ fun _ => split_filter_solves named

end

section

variable (wf : ev.sys.WellFormed) (f : Formula) (belongs : ∀ names ∈ f.coalitions, ∀ t, ev.sys.teamOf names = .ok t → teams t)

include wf

theorem keeps_twins : ev.sys.Twins ev.sys.fairness (KeptAlike ev.sys teams) := ⟨wf, kept_linked ev.sys teams, fun _ _ => rfl⟩

include belongs

theorem keeps_everywhere : ev.Keeps teams ev.sys.StateSet (ev.everywhere f) := by
  have valued : ev.Valued ev.sys.fairness (KeptAlike ev.sys teams) fun _ _ => True := fun _ _ alike =>
    alike.mono fun _ holds => ⟨holds, trivial⟩
  refine matches_everywhere valued (keeps_twins wf) f ?_
  rintro g decides ⟨formula, ability, t, goal⟩ rfl sets
  obtain ⟨aim, aims, _, _, found, _⟩ := sets.aims
  have known := belongs aim.names (Formula.decided_coalitions decides aims) t found
  exact keeps_decide wf known (ev.sys.team_of_spec aim.names t found).2 sets.left sets.right formula ability

theorem keeps_query : (ev.query f).Agree (ev.query f) ev (KeptAlike ev.sys teams) := by
  refine query_alike (keeps_twins wf) (kept_recalls ev.sys teams) f fun names listed t found => ?_
  have known := belongs names listed t found
  obtain ⟨of, named⟩ := ev.sys.team_of_spec names t found
  constructor
  · rintro _ ⟨formula, ability, u, goal⟩ same left right
    obtain rfl : u = t := same
    exact keeps_decide wf known named left right formula ability
  · exact fun _ => (keeps_protocol known named).mono fun p ⟨u, ofToo, same⟩ => ⟨same ▸ wf.protocol_played ofToo, fun _ _ _ _ _ _ => rfl⟩

theorem keeps_satisfying_among {states : Region} (clear : states.Reads ev.sys.moveBit) :
    ev.Keeps teams ev.sys.StateSet (ev.satisfyingAmong f states) := by
  rw [among_states wf f clear]
  exact (keeps_query wf f belongs).agree (ev.sys.states_of_state_set clear)

theorem keeps_on_all : ev.Keeps teams ev.sys.StateSet (ev.onAll f) :=
  matches_ite (fun _ => matches_throw .canceled) fun _ => keeps_everywhere wf f belongs

theorem keeps_satisfying : ev.Keeps teams ev.sys.StateSet (ev.satisfying f) :=
  matches_ite (fun _ => keeps_satisfying_among wf f belongs (Frame.StateSet.mask _).moves) fun _ => keeps_on_all wf f belongs

theorem keeps_check : ev.Keeps teams (fun _ => True) (ev.check f) := by
  have answer : ∀ r : Region, ev.Keeps teams (fun _ => True) (pure (ev.sys.init.subset r)) := fun r => matches_pure trivial
  unfold check
  exact matches_ite (fun _ => matches_bind (keeps_satisfying_among wf f belongs wf.init.moves) fun r _ => answer r) fun _ =>
    matches_bind (keeps_on_all wf f belongs) fun r _ => answer r

end

theorem Keeps.run {α : Type} {P : α → Prop} {x : Eval α} {m : Memory} (keeps : ev.Keeps teams P x) (kept : m.Kept ev.sys teams) :
    (x.run m).2.Kept ev.sys teams ∧ ∀ a k, x.run m = (.ok a, k) → P a := by
  obtain ⟨result, k, l, here, _, still, holds⟩ := keeps m m ⟨.refl m, kept⟩
  rw [here]
  exact ⟨still.2, fun a n same => holds a (congrArg Prod.fst same)⟩

theorem leaves_kept (wf : ev.sys.WellFormed) {q : Question} (clear : q.Clear ev.sys)
    (belongs : ∀ names ∈ q.formula.coalitions, ∀ t, ev.sys.teamOf names = .ok t → teams t) {m : Memory} (kept : m.Kept ev.sys teams) :
    (q.leaves ev m).Kept ev.sys teams := by
  cases q with
  | all f => exact (Keeps.run (keeps_satisfying wf f belongs) kept).1
  | initial f => exact (Keeps.run (keeps_check wf f belongs) kept).1
  | among f states => exact (Keeps.run (keeps_satisfying_among wf f belongs clear) kept).1

theorem after_kept (wf : ev.sys.WellFormed) {asked : List Question} (clear : ∀ q ∈ asked, q.Clear ev.sys)
    (belongs : ∀ t, ev.sys.TeamIn asked t → teams t) : (ev.after asked).Kept ev.sys teams :=
  after_keeps (I := fun m => m.Kept ev.sys teams) (Memory.empty_kept ev.sys teams) fun q listed _ kept =>
    leaves_kept wf (clear q listed) (fun names member t found => belongs t ⟨q, listed, names, member, found⟩) kept

end Evaluator

end Coalition
