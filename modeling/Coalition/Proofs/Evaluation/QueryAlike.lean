import Coalition.Evaluation.OnStates
import Coalition.Proofs.Evaluation.Local
import Coalition.Proofs.Evaluation.SearchAlike

-- Requests that run alike on systems that differ in their constraints.

set_option autoImplicit false

namespace Coalition

open Eval

-- Sets of states of which some are known to satisfy a formula and others not to.
structure Known.Sorted (known : Known) (sys : System) : Prop where
  yes : sys.StateSet known.yes
  no : sys.StateSet known.no
  apart : Disjoint known.yes.members known.no.members

def Answers.Sorted (a : Answers) (sys : System) : Prop := ∀ entry ∈ a.entries, entry.2.Sorted sys

structure System.Recalls (sys : System) (R : Memory → Memory → Prop) : Prop where
  same : ∀ m n, R m n → n.answers = m.answers
  sorted : ∀ m n, R m n → m.answers.Sorted sys
  keeps : ∀ m n a, R m n → a.Sorted sys → R { m with answers := a } { n with answers := a }

namespace Known.Sorted

variable {sys : System} {known : Known}

theorem none (sys : System) : Known.Sorted {} sys := ⟨.empty _, .empty _, by simp⟩

theorem more (sorted : known.Sorted sys) {states sat : Region} (statesKnown : sys.StateSet states) (satKnown : sys.StateSet sat)
    (inside : sat.members ⊆ (states.diff (known.yes.union known.no)).members) :
    Known.Sorted ⟨known.yes.union sat, known.no.union ((states.diff (known.yes.union known.no)).diff sat)⟩ sys := by
  have remaining := statesKnown.diff (sorted.yes.union sorted.no).reads
  refine ⟨sorted.yes.union satKnown, sorted.no.union (remaining.diff satKnown.reads), Set.disjoint_left.mpr fun ρ yes no => ?_⟩
  have fresh : ρ ∈ (states.diff (known.yes.union known.no)).members → ρ ∉ known.yes.members ∧ ρ ∉ known.no.members := by
    rw [Region.members_diff, Region.members_union]
    exact fun member => not_or.mp member.2
  rw [Region.members_union] at yes no
  rw [Region.members_diff] at no
  obtain before | now := yes <;> obtain out | left := no
  · exact Set.disjoint_left.mp sorted.apart before out
  · exact (fresh left.1).1 before
  · exact (fresh (inside now)).2 out
  · exact left.2 now

end Known.Sorted

namespace Answers

variable {sys : System} {a : Answers}

theorem Sorted.find (sorted : a.Sorted sys) (key : String) : ((a.find? key).getD {}).Sorted sys := by
  cases found : a.find? key with
  | none => exact .none sys
  | some known =>
      obtain ⟨before, _, listed, _⟩ := List.lookup_eq_some_iff.mp found
      exact sorted (key, known) (by simp [listed])

theorem Sorted.put (sorted : a.Sorted sys) (key : String) {known : Known} (own : known.Sorted sys) : (a.put key known).Sorted sys :=
  List.forall_mem_cons.mpr ⟨own, fun entry listed => sorted entry (List.mem_filter.mp listed).1⟩

theorem Sorted.touch (sorted : a.Sorted sys) (key : String) : (a.touch key).Sorted sys := by
  have own := sorted.find key
  unfold Answers.touch
  cases found : a.find? key with
  | none => exact sorted
  | some known => exact sorted.put key (by rwa [found] at own)

theorem Sorted.store (sorted : a.Sorted sys) (size : Nat) (key : String) {known : Known} (own : known.Sorted sys) :
    (a.store size key known).Sorted sys := fun entry listed => sorted.put key own entry (List.mem_of_mem_take listed)

end Answers

namespace Evaluator

structure Among (ev : Evaluator) (states r : Region) : Prop where
  known : ev.sys.StateSet r
  inside : r.members ⊆ states.members

def AnswersAlike (ev : Evaluator) (R : Memory → Memory → Prop) (body body' : Region → Eval Region) : Prop :=
  ∀ states, ev.sys.StateSet states → Matches R (ev.Among states) (body states) (body' states)

-- What a team can do is decided alike: on the whole state, or by the search on its protocol.
structure TeamAlike (ev : Evaluator) (constraints : List Region) (R : Memory → Memory → Prop) (t : Team) : Prop where
  decides : ev.options.observability = .full → ∀ task : Task, task.team = t → ev.sys.StateSet task.goal.left →
    ev.sys.StateSet task.goal.right → ev.Agree R (ev.decide task) ((ev.under constraints).decide task)
  plays : ev.options.observability = .limited → Matches R (fun p => ev.sys.PlayedSet p ∧ ev.WinsAlike constraints t p)
    (Eval.protocol ev.sys t) (Eval.protocol (ev.sys.under constraints) t)

def TeamsAlike (ev : Evaluator) (constraints : List Region) (R : Memory → Memory → Prop) (f : Formula) : Prop :=
  f.Every (fun _ => True) (fun _ => True) fun names => ∀ t, ev.sys.teamOf names = .ok t → ev.TeamAlike constraints R t

end Evaluator

structure Query.Agree (q q' : Query) (ev : Evaluator) (R : Memory → Memory → Prop) : Prop where
  formula : q'.formula = q.formula
  answers : ev.AnswersAlike R q.run q'.run

theorem Query.Agree.agree {q q' : Query} {ev : Evaluator} {R : Memory → Memory → Prop} (alike : q.Agree q' ev R) {states : Region}
    (known : ev.sys.StateSet states) : ev.Agree R (q.run states) (q'.run states) :=
  (alike.answers states known).mono fun _ found => found.known

namespace Evaluator

variable {ev : Evaluator} {constraints : List Region} {R : Memory → Memory → Prop} {p q p' q' : Query} {body body' : Region → Eval Region}

theorem Among.within {states r : Region} (known : ev.sys.StateSet states) (reads : r.Reads ev.sys.stateBit) :
    ev.Among states (r.inter states) :=
  ⟨known.within reads, Region.inter_subset_right _ _⟩

theorem Among.left {states r : Region} (known : ev.sys.StateSet states) (reads : r.Reads ev.sys.stateBit) :
    ev.Among states (states.diff r) :=
  ⟨known.diff reads, by rw [Region.members_diff]; exact Set.sdiff_subset⟩

theorem Among.union {states l r : Region} (first : ev.Among states l) (second : ev.Among states r) : ev.Among states (l.union r) :=
  ⟨first.known.union second.known, by rw [Region.members_union]; exact Set.union_subset first.inside second.inside⟩

theorem matches_cut {states : Region} (known : ev.sys.StateSet states) {x y : Eval Region} (alike : ev.Agree R x y) :
    Matches R (ev.Among states) (x >>= fun r => pure (r.inter states)) (y >>= fun r => pure (r.inter states)) :=
  matches_bind alike fun _ found => matches_pure (.within known found.reads)

section

variable (twins : ev.sys.Twins constraints R) (recalls : ev.sys.Recalls R)

include twins recalls

theorem matches_recall (key : String) (alike : ev.AnswersAlike R body body') :
    ev.AnswersAlike R (ev.recallAnswer key body) ((ev.under constraints).recallAnswer key body') := by
  intro states known
  have counts := fun counter => matches_count twins.linked counter 1
  unfold recallAnswer
  refine matches_get fun m n related => ?_
  rw [recalls.same m n related]
  have sorted := (recalls.sorted m n related).find key
  generalize (m.answers.find? key).getD {} = answer at sorted ⊢
  dsimp only
  refine matches_bind (matches_modify fun k l related => ?_) fun _ _ => ?_
  · rw [recalls.same k l related]
    exact recalls.keeps k l _ related ((recalls.sorted k l related).touch key)
  have remaining := known.diff (sorted.yes.union sorted.no).reads
  refine matches_ite (fun _ => matches_bind (counts _) fun _ _ => matches_pure (.within known sorted.yes.reads)) fun _ => ?_
  refine matches_bind (counts _) fun _ _ => matches_bind (alike _ remaining) fun sat found => ?_
  have more := sorted.more known found.known found.inside
  refine matches_bind (matches_modify fun k l related => ?_) fun _ _ => matches_pure (.within known more.yes.reads)
  rw [recalls.same k l related]
  exact recalls.keeps k l _ related ((recalls.sorted k l related).store _ key more)

theorem matches_ask (f : Formula) (alike : ev.AnswersAlike R body body') : (ev.ask f body).Agree ((ev.under constraints).ask f body') ev R := by
  refine ⟨rfl, fun states known => ?_⟩
  have compute : ev.AnswersAlike R (fun states => if ev.cancelled then throw .canceled else body states)
      (fun states => if ev.cancelled then throw .canceled else body' states) := fun states inside =>
    matches_ite (fun _ => matches_throw .canceled) fun _ => alike states inside
  unfold ask
  dsimp only
  rw [known.states_of twins.system.laid, show (ev.under constraints).sys.statesOf states = states from known.states_of twins.system.laid]
  refine matches_ite (fun _ => matches_pure ⟨known, Set.Subset.refl _⟩) fun _ => ?_
  exact matches_ite (fun _ => matches_recall twins recalls f.text compute states known) fun _ => compute states known

end

section

variable (first : p.Agree p' ev R) (second : q.Agree q' ev R)

theorem negate_alike (first : p.Agree p' ev R) : ev.AnswersAlike R (Body.negate p) (Body.negate p') := fun states known =>
  matches_bind (first.answers states known) fun _ found => matches_pure (.left known found.known.reads)

theorem both_alike (first : p.Agree p' ev R) (second : q.Agree q' ev R) : ev.AnswersAlike R (Body.both p q) (Body.both p' q') :=
  fun states known => matches_bind (first.answers states known) fun l found => matches_ite (fun _ => matches_pure found) fun _ =>
    (second.answers l found.known).mono fun _ other => ⟨other.known, other.inside.trans found.inside⟩

theorem either_alike (first : p.Agree p' ev R) (second : q.Agree q' ev R) : ev.AnswersAlike R (Body.either p q) (Body.either p' q') :=
  fun states known => matches_bind (first.answers states known) fun _ found =>
    matches_bind (second.answers _ (known.diff found.known.reads)) fun _ other => matches_pure
      (.union found ⟨other.known, other.inside.trans (Among.left known found.known.reads).inside⟩)

theorem equally_alike (first : p.Agree p' ev R) (second : q.Agree q' ev R) : ev.AnswersAlike R (Body.equally p q) (Body.equally p' q') :=
  fun states known => matches_bind (first.answers states known) fun _ found => matches_bind (second.answers states known) fun _ other =>
    matches_pure (.within known (found.known.reads.iff other.known.reads))

variable (twins : ev.sys.Twins constraints R)

include twins first

theorem some_next_alike : ev.AnswersAlike R (Body.someNext ev p) (Body.someNext (ev.under constraints) p') := fun _ known =>
  matches_cut known (matches_some_next twins (first.agree (twins.system.post_state_set known.moves)))

theorem some_always_alike : ev.AnswersAlike R (Body.someAlways ev p) (Body.someAlways (ev.under constraints) p') := fun _ known =>
  matches_cut known (matches_some_always twins (first.agree (twins.system.reach_from_spec known.moves).1))

include second in
theorem some_until_alike : ev.AnswersAlike R (Body.someUntil ev p q) (Body.someUntil (ev.under constraints) p' q') := fun _ known =>
  have led := (twins.system.reach_from_spec known.moves).1
  matches_cut known (matches_some_until twins (first.agree led) (second.agree led))

theorem possibly_alike (sharing : Sharing) (names : List String) :
    ev.AnswersAlike R (Body.possibly ev sharing names p) (Body.possibly (ev.under constraints) sharing names p') := by
  intro states known
  unfold Body.possibly
  rw [show (ev.under constraints).sys.teamOf names = _ from ev.sys.team_of_under constraints names]
  refine matches_bind (matches_of_except (ev.sys.team_of_spec names)) fun t team => ?_
  have near : Matches R ev.sys.StateSet (Body.related ev sharing t states) (Body.related (ev.under constraints) sharing t states) := by
    cases sharing with
    | distributed => exact matches_pure (System.equivalents_state_set known.moves)
    | everyone => exact matches_pure (System.WellFormed.equivalents_for_some_state_set known)
    | common => exact matches_counted twins.linked rfl (twins.system.equivalents_by_chain_spec known team.1).1
  refine matches_bind near fun on close => matches_bind (first.agree close) fun sat told => ?_
  exact matches_cut known (matches_possible twins team.1 sharing told)

include second in
theorem achieve_alike {names : List String} (teams : ∀ t, ev.sys.teamOf names = .ok t → ev.TeamAlike constraints R t) (formula : Formula)
    (ability : Ability) (kind : GoalKind) : ev.AnswersAlike R (Body.achieve ev formula ability names kind p q)
      (Body.achieve (ev.under constraints) formula ability names kind p' q') := by
  intro states known
  unfold Body.achieve
  rw [show (ev.under constraints).sys.teamOf names = _ from ev.sys.team_of_under constraints names]
  refine matches_bind (P := fun t => ev.sys.teamOf names = .ok t) (matches_of_except fun _ found => found) fun t found => ?_
  have operands : Operands.Agree ⟨kind, p.run, q.run⟩ ⟨kind, p'.run, q'.run⟩ ev R :=
    ⟨rfl, fun _ inside => first.agree inside, fun _ inside => second.agree inside⟩
  refine matches_ite (fun full => ?_) fun notFull => ?_
  · refine matches_bind (matches_operands operands (twins.system.reach_from_spec known.moves).1) fun goal cut => ?_
    exact matches_cut known ((teams t found).decides full _ rfl cut.2.1 cut.2.2)
  · have limited : ev.options.observability = .limited := by
      cases sees : ev.options.observability with
      | full => exact absurd sees notFull
      | limited => rfl
    refine matches_cut known (matches_deciding twins.linked (matches_bind ((teams t found).plays limited) fun protocol plays => ?_))
    have search : (⟨ev, t, protocol, ⟨kind, p.run, q.run⟩⟩ : Search).Plays :=
      ⟨twins.system, (ev.sys.team_of_spec names t found).1, plays.1⟩
    exact Search.matches_run search twins.linked plays.2 operands (Search.close_state_set twins.system known)

end

section

variable (twins : ev.sys.Twins constraints R) (recalls : ev.sys.Recalls R)

include twins recalls

theorem query_built :
    Formula.Built ev.usesDual
      (fun f => ev.TeamsAlike constraints R f → ev.AnswersAlike R (ev.operation f) ((ev.under constraints).operation f))
      fun f => ev.TeamsAlike constraints R f → (ev.query f).Agree ((ev.under constraints).query f) ev R where
  forces := rfl
  whole := fun f p teams => by
    rw [query_operation f, @query_operation (ev.under constraints) f]
    exact matches_ask twins recalls f (p (f.every_spelled.mpr teams))
  constant := fun value _ _ known => matches_pure (.within known (constant_state_set twins.system value).reads)
  atom := fun text _ _ known => matches_cut known (matches_of_except (twins.system.atom_spec text))
  not := fun _ p teams => negate_alike (p teams)
  and := fun _ _ p q teams => both_alike (p teams.1) (q teams.2)
  or := fun _ _ p q teams => either_alike (p teams.1) (q teams.2)
  iff := fun _ _ p q teams => equally_alike (p teams.1) (q teams.2)
  next := fun _ p teams => some_next_alike (p teams) twins
  always := fun _ p teams => some_always_alike (p teams) twins
  strong := fun _ _ p q teams => some_until_alike (p teams.1) (q teams.2) twins
  agent := fun name _ p teams => possibly_alike (p teams.2) twins .distributed [name]
  group := fun sharing names _ p teams => possibly_alike (p teams.2) twins sharing names
  aims := fun f aim aims _ p q teams => by
    obtain ⟨own, left, right⟩ := (Formula.every_aim aims).mp teams
    rw [operation_aim aims, @operation_aim (ev.under constraints) f aim aims]
    exact achieve_alike (p left) (q right) twins own f aim.ability aim.kind

theorem query_alike (f : Formula) (teams : ∀ names ∈ f.coalitions, ∀ t, ev.sys.teamOf names = .ok t → ev.TeamAlike constraints R t) :
    (ev.query f).Agree ((ev.under constraints).query f) ev R :=
  (query_built twins recalls).all f (f.every_coalition.mpr teams)

end

end Evaluator

end Coalition
