import Coalition.Proofs.Evaluation.Requests

-- Where coalitions may do the same wherever they see the same, requests get the answers of enumerated strategies, cut to the request.

set_option autoImplicit false

namespace Coalition

-- What may be asked of an evaluator: all states that satisfy a formula, whether all initial states do, or which of some states.
inductive Question where
  | all (f : Formula)
  | initial (f : Formula)
  | among (f : Formula) (states : Region)

namespace Question

def formula : Question → Formula
  | .all f => f
  | .initial f => f
  | .among f _ => f

-- The states asked for are told by states and inputs.
def Clear (sys : System) : Question → Prop
  | .among _ states => states.Reads sys.moveBit
  | _ => True

def leaves (ev : Evaluator) (m : Memory) : Question → Memory
  | .all f => ((ev.satisfying f).run m).2
  | .initial f => ((ev.check f).run m).2
  | .among f states => ((ev.satisfyingAmong f states).run m).2

end Question

namespace System

def TeamIn (sys : System) (questions : List Question) (t : Team) : Prop :=
  ∃ q ∈ questions, ∃ names ∈ q.formula.coalitions, sys.teamOf names = .ok t

theorem apart_of_single {sys : System} {questions : List Question} {names : List String}
    (single : ∀ q ∈ questions, ∀ other ∈ q.formula.coalitions, other = names) : KeyedApart (sys.TeamIn questions) := by
  rintro t u ⟨q, listed, other, coalition, found⟩ ⟨q', listed', other', coalition', found'⟩ _
  obtain rfl := single q listed other coalition
  obtain rfl := single q' listed' other' coalition'
  exact Except.ok.inj (found.symm.trans found')

end System

namespace Evaluator

def after (ev : Evaluator) (questions : List Question) : Memory := questions.foldl (fun m q => q.leaves ev m) {}

theorem after_related {ev other : Evaluator} {R : Memory → Memory → Prop} (empty : R {} {}) {questions : List Question}
    (leaves : ∀ q ∈ questions, ∀ m n, R m n → R (q.leaves ev m) (q.leaves other n)) : R (ev.after questions) (other.after questions) := by
  have from_memory : ∀ m n, R m n →
      R (questions.foldl (fun m q => q.leaves ev m) m) (questions.foldl (fun m q => q.leaves other m) n) := by
    induction questions with
    | nil => exact fun m n related => related
    | cons q rest ih =>
        intro m n related
        obtain ⟨first, later⟩ := List.forall_mem_cons.mp leaves
        exact ih later _ _ (first m n related)
  exact from_memory {} {} empty

theorem after_keeps {ev : Evaluator} {I : Memory → Prop} (empty : I {}) {questions : List Question}
    (leaves : ∀ q ∈ questions, ∀ m, I m → I (q.leaves ev m)) : I (ev.after questions) :=
  @after_related ev ev (fun m _ => I m) empty _ fun q listed m _ kept => leaves q listed m kept

theorem lamp_answered : ∃ sys t, lamp.build = .ok sys ∧ sys.teamOf ["hand"] = .ok t ∧ sys.SameActions t ∧
    (∀ a ∈ sys.agents, ',' ∉ a.name.toList) ∧ (∃ states k, (satisfying ⟨sys, {}, false⟩ lampQuestion).run {} = (.ok states, k)) ∧
    let ev : Evaluator := ⟨sys, { variant := .onRequest }, false⟩
    (∃ states k, (ev.satisfying lampQuestion).run {} = (.ok states, k)) ∧
      ∃ r l, (ev.satisfyingAmong lampQuestion sys.init).run (ev.after [.all lampQuestion]) = (.ok r, l) := by
  have works : (do
      let sys ← lamp.build
      let ev : Evaluator := ⟨sys, { variant := .onRequest }, false⟩
      let t ← sys.teamOf ["hand"]
      let _ ← ((satisfying ⟨sys, {}, false⟩ lampQuestion).run {}).1
      let _ ← ((ev.satisfying lampQuestion).run {}).1
      let _ ← ((ev.satisfyingAmong lampQuestion sys.init).run (ev.after [.all lampQuestion])).1
      return Decidable.decide (∀ a ∈ sys.agents, ',' ∉ a.name.toList) &&
        Decidable.decide (∀ b ∈ sys.stateBits, ∃ a ∈ t.members, ∃ v ∈ a.observed, b ∈ v.bits)).toOption = some true := by decide +kernel
  obtain ⟨sys, built, rest⟩ := ok_of_bind (ok_of_to_option works)
  obtain ⟨t, named, rest⟩ := ok_of_bind rest
  obtain ⟨states, ran, rest⟩ := ok_of_bind rest
  obtain ⟨statesToo, ranToo, rest⟩ := ok_of_bind rest
  obtain ⟨r, answered, rest⟩ := ok_of_bind rest
  obtain ⟨commas, sees⟩ := (Bool.and_eq_true _ _).mp (Except.ok.inj rest)
  have wf := lamp.build_well_formed sys built
  exact ⟨sys, t, built, named, wf.same_actions (of_decide_eq_true sees), of_decide_eq_true commas, ⟨states, _, Prod.ext ran rfl⟩,
    ⟨statesToo, _, Prod.ext ranToo rfl⟩, r, _, Prod.ext answered rfl⟩

variable {ev : Evaluator} {teams : Team → Prop} {must : Prop} {f : Formula}

theorem among_states (wf : ev.sys.WellFormed) (f : Formula) {states : Region} (clear : states.Reads ev.sys.moveBit) :
    ev.satisfyingAmong f states = ev.satisfyingAmong f (ev.sys.statesOf states) := by
  have asked : ∃ g body, ev.query f = ev.ask g body := by cases f <;> exact ⟨_, _, rfl⟩
  obtain ⟨g, body, same⟩ := asked
  unfold satisfyingAmong ask at *
  rw [same]
  dsimp only
  rw [(ev.sys.states_of_state_set clear).states_of wf.laid]

theorem all_meets {keys : Ledger} (wf : ev.sys.WellFormed) (onRequest : ev.options.variant = .onRequest)
    (answers : (ev.query f).Answers ev keys must f) :
    Eval.Meets (ev.Assured keys) must (ev.satisfying f) fun r => ev.sys.StateSet r ∧ (ev.Trusts f → r = ev.truth f) := by
  unfold satisfying
  rw [if_pos onRequest]
  refine (answers.tells _ (.mask _)).mono fun r found => ⟨found.1, fun trusts => ?_⟩
  rw [found.2 trusts]
  refine Region.members_injective ?_
  rw [Region.members_inter]
  exact Set.inter_eq_left.mpr (truth_state_set wf f).inside

theorem initial_meets {keys : Ledger} (wf : ev.sys.WellFormed) (onRequest : ev.options.variant = .onRequest)
    (answers : (ev.query f).Answers ev keys must f) :
    Eval.Meets (ev.Assured keys) must (ev.check f) fun b => ev.Trusts f → (b = true ↔ ev.sys.init.members ⊆ (ev.truth f).members) := by
  unfold check
  dsimp only
  rw [if_pos onRequest]
  refine Eval.meets_bind (answers.tells _ wf.init) fun r found => Eval.meets_pure fun trusts => ?_
  rw [Region.members_subset, found.2 trusts, Region.members_inter, Set.subset_inter_iff]
  exact and_iff_left (Set.Subset.refl _)

theorem leaves_honest {keys : Ledger} (wf : ev.sys.WellFormed) (onRequest : ev.options.variant = .onRequest) {q : Question}
    (answers : (ev.query q.formula).Answers ev keys False q.formula) (clear : q.Clear ev.sys) {m : Memory} (kept : ev.Assured keys m) :
    ev.Assured keys (q.leaves ev m) := by
  cases q with
  | all f => exact (all_meets wf onRequest answers m kept).1
  | initial f => exact (initial_meets wf onRequest answers m kept).1
  | among f states =>
      have known := ev.sys.states_of_state_set (clear : states.Reads ev.sys.moveBit)
      unfold Question.leaves
      dsimp only
      rw [among_states wf f clear]
      exact (answers.tells _ known m kept).1

theorem answers_honest {keys : Ledger} (wf : ev.sys.WellFormed) (onRequest : ev.options.variant = .onRequest) {questions : List Question}
    (answers : ∀ q ∈ questions, (ev.query q.formula).Answers ev keys False q.formula) (clear : ∀ q ∈ questions, q.Clear ev.sys) :
    ev.Assured keys (ev.after questions) :=
  after_keeps (empty_assured ev keys) fun q listed _ kept => leaves_honest wf onRequest (answers q listed) (clear q listed) kept

section

variable (wf : ev.sys.WellFormed) (ready : must → ev.cancelled = false) (group : ev.options.semantics = .group) (apart : KeyedApart teams)
  (reduces : must → ev.options.early = .threshold → ev.options.threshold.Reduces) (onRequest : ev.options.variant = .onRequest)

include wf ready group apart reduces

theorem among_meets (fits : ev.Fits teams must f) {states : Region} (known : ev.sys.StateSet states) :
    Eval.Meets (ev.Honest teams) must (ev.satisfyingAmong f states) fun r =>
      ev.sys.StateSet r ∧ (ev.Trusts f → r = (ev.truth f).inter states) :=
  meets_honest ((query_answers wf ready (fun _ => group) apart (fun _ => reduces) f fits).tells states known)

include onRequest

theorem satisfying_meets (fits : ev.Fits teams must f) :
    Eval.Meets (ev.Honest teams) must (ev.satisfying f) fun r => ev.sys.StateSet r ∧ (ev.Trusts f → r = ev.truth f) :=
  meets_honest (all_meets wf onRequest (query_answers wf ready (fun _ => group) apart (fun _ => reduces) f fits))

theorem check_meets (fits : ev.Fits teams must f) :
    Eval.Meets (ev.Honest teams) must (ev.check f) fun b => ev.Trusts f → (b = true ↔ ev.sys.init.members ⊆ (ev.truth f).members) :=
  meets_honest (initial_meets wf onRequest (query_answers wf ready (fun _ => group) apart (fun _ => reduces) f fits))

end

section

variable (wf : ev.sys.WellFormed) (group : ev.options.semantics = .group) (apart : KeyedApart teams)
  (onRequest : ev.options.variant = .onRequest)

include wf group apart onRequest

theorem after_honest {questions : List Question} (fits : ∀ q ∈ questions, ev.Fits teams False q.formula)
    (clear : ∀ q ∈ questions, q.Clear ev.sys) : ev.Honest teams (ev.after questions) :=
  have answers : ∀ q ∈ questions, (ev.query q.formula).Answers ev teams False q.formula := fun q listed =>
    query_answers wf False.elim (fun _ => group) apart (fun _ => False.elim) q.formula (fits q listed)
  (answers_honest wf onRequest answers clear).toHonest

end

/-- Asking about fewer states does not change the answer, whatever was asked before, if coalitions see everything or may do the same
wherever they see the same, and every key of a coalition stands for one team. -/
theorem requests_agree {d : Description} (built : d.build = .ok ev.sys) (onRequest : ev.options.variant = .onRequest)
    (uncached : ev.options.caching = false) (group : ev.options.semantics = .group)
    (actions : ev.options.observability = .full ∨ ∀ names ∈ f.coalitions, ∀ t, ev.sys.teamOf names = .ok t → ev.sys.SameActions t)
    {asked : List Question} (clear : ∀ q ∈ asked, q.Clear ev.sys) (listed : .all f ∈ asked) (apart : KeyedApart (ev.sys.TeamIn asked))
    {earlier later : List Question} (before : earlier ⊆ asked) (after : later ⊆ asked) {states : Region} {k : Memory}
    (all : (ev.satisfying f).run (ev.after earlier) = (.ok states, k)) :
    (∀ request r l, ev.sys.StateSet request → (ev.satisfyingAmong f request).run (ev.after later) = (.ok r, l) → r = states.inter request) ∧
      ∀ b l, (ev.check f).run (ev.after later) = (.ok b, l) → (b = true ↔ ev.sys.init.members ⊆ states.members) := by
  have wf := d.build_well_formed _ built
  have forgets : ¬ ev.remembers = true := by simp [remembers, uncached]
  have fits : ∀ q ∈ asked, ev.Fits (ev.sys.TeamIn asked) False q.formula := fun q inside =>
    ⟨fun remembers => absurd remembers forgets, False.elim, fun names coalition t found => ⟨q, inside, names, coalition, found⟩⟩
  have trusts : ev.Trusts f := f.every_coalition.mpr fun names coalition t found =>
    actions.imp id fun same => same names coalition t found
  have honest : ∀ {questions : List Question}, questions ⊆ asked → ev.Honest (ev.sys.TeamIn asked) (ev.after questions) := fun known =>
    after_honest wf group apart onRequest (fun q inside => fits q (known inside)) fun q inside => clear q (known inside)
  obtain ⟨_, _, whole⟩ := (satisfying_meets wf False.elim group apart False.elim onRequest (fits _ listed)).ok (honest before) all
  obtain rfl := whole trusts
  constructor
  · intro request r l known ran
    obtain ⟨_, _, told⟩ := (among_meets wf False.elim group apart False.elim (fits _ listed) known).ok (honest after) ran
    exact told trusts
  · intro b l ran
    exact ((check_meets wf False.elim group apart False.elim onRequest (fits _ listed)).ok (honest after) ran).2 trusts

theorem requests_agree_lamp : ∃ (ev : Evaluator) (states r : Region) (k l : Memory), lamp.build = .ok ev.sys ∧
    ev.options.variant = .onRequest ∧ ev.options.observability = .limited ∧ (ev.satisfying lampQuestion).run {} = (.ok states, k) ∧
    (ev.satisfyingAmong lampQuestion ev.sys.init).run (ev.after [.all lampQuestion]) = (.ok r, l) ∧ r = states.inter ev.sys.init := by
  obtain ⟨sys, t, built, named, same, _, _, ⟨states, k, all⟩, r, l, ran⟩ := lamp_answered
  have own : ∀ names ∈ lampQuestion.coalitions, ∀ u, sys.teamOf names = .ok u → u = t := by
    intro names listed u found
    rw [List.mem_singleton.mp listed, named] at found
    exact (Except.ok.inj found).symm
  have only : ∀ u, sys.TeamIn [.all lampQuestion] u → u = t := by
    rintro u ⟨q, listed, names, coalition, found⟩
    rw [List.mem_singleton.mp listed] at coalition
    exact own names coalition u found
  have wf := lamp.build_well_formed sys built
  have agree := @requests_agree ⟨sys, { variant := .onRequest }, false⟩ lampQuestion lamp built rfl rfl rfl
    (.inr fun names listed u found => own names listed u found ▸ same) [.all lampQuestion] (by simp [Question.Clear])
    (List.mem_singleton_self _) (fun u w here there _ => (only u here).trans (only w there).symm) [] [.all lampQuestion]
    (List.nil_subset _) (List.Subset.refl _) states k all
  exact ⟨⟨sys, { variant := .onRequest }, false⟩, states, r, k, l, built, rfl, rfl, all, ran, agree.1 sys.init r l wf.init ran⟩

theorem named_apart {sys : System} (wf : sys.WellFormed) (commas : ∀ a ∈ sys.agents, ',' ∉ a.name.toList) :
    KeyedApart fun t => ∃ names, sys.teamOf names = .ok t := by
  rintro t u ⟨first, found⟩ ⟨second, foundToo⟩ key
  obtain ⟨of, own⟩ := sys.team_of_spec first t found
  obtain ⟨ofToo, ownToo⟩ := sys.team_of_spec second u foundToo
  have proper : ∀ {w : Team}, w.Of sys → ∀ x ∈ w.names, x ≠ "" ∧ ',' ∉ x.toList := by
    intro w of x listed
    obtain ⟨a, member, rfl⟩ := List.mem_map.mp listed
    exact ⟨(wf.agents a (of a member)).named, commas a (of a member)⟩
  have agents := team_key_injective (proper of) (proper ofToo) key
  rw [agents, ownToo] at own
  exact (Except.ok.inj own).symm

/-- The search for partial strategies gives the answers that splitting and filtering gives, on every request, with any options and
whatever was asked before, if coalitions may do the same wherever they see the same. -/
theorem requests_agree_enumerated {d : Description} {sys : System} (built : d.build = .ok sys)
    (commas : ∀ a ∈ sys.agents, ',' ∉ a.name.toList) {o u : Options} {stopped : Bool} (enumerates : o.variant = .splitFilter)
    (onRequest : u.variant = .onRequest) (limited : o.observability = .limited) (limitedToo : u.observability = .limited)
    (group : o.semantics = .group) (groupToo : u.semantics = .group) (fraction : u.threshold.Fraction) (plain : f.Plain)
    (same : ∀ names ∈ f.coalitions, ∀ t, sys.teamOf names = .ok t → sys.SameActions t) {states : Region} {k : Memory}
    (found : (satisfying ⟨sys, o, stopped⟩ f).run {} = (.ok states, k)) {earlier : List Question} (clear : ∀ q ∈ earlier, q.Clear sys)
    (plainToo : ∀ q ∈ earlier, q.formula.Plain) {request : Region} (known : sys.StateSet request) :
    ∃ l, (satisfyingAmong ⟨sys, u, false⟩ f request).run (after ⟨sys, u, false⟩ earlier) = (.ok (states.inter request), l) := by
  have wf := d.build_well_formed _ built
  have apart := named_apart wf commas
  have belongs : ∀ g : Formula, ∀ names ∈ g.coalitions, ∀ t, sys.teamOf names = .ok t → ∃ listed, sys.teamOf listed = .ok t :=
    fun _ names _ t found => ⟨names, found⟩
  have truth : states = (⟨sys, o, stopped⟩ : Evaluator).truth f ∧ f.Resolves sys := by
    have splits : choosing ⟨sys, o, stopped⟩ .splitFilter = ⟨sys, o, stopped⟩ := by
      unfold choosing
      dsimp only
      rw [← enumerates]
    unfold satisfying onAll at found
    dsimp only at found
    rw [if_neg (by simp [enumerates])] at found
    split at found
    · cases found
    · exact ((@everywhere_shows ⟨sys, o, stopped⟩ _ wf splits apart f (belongs f)).ok (empty_honest _ _) found).2
  obtain ⟨rfl, resolves⟩ := truth
  have fits : ∀ q ∈ earlier, Fits ⟨sys, u, false⟩ (fun t => ∃ names, sys.teamOf names = .ok t) False q.formula := fun q listed =>
    ⟨fun _ => plainToo q listed, False.elim, belongs q.formula⟩
  have kept := @after_honest ⟨sys, u, false⟩ _ wf groupToo apart onRequest earlier fits clear
  obtain ⟨r, l, ran, _, _, told⟩ := (@among_meets ⟨sys, u, false⟩ _ True f wf (fun _ => rfl) groupToo apart (fun _ _ => fraction.reduces)
    ⟨fun _ => plain, fun _ => resolves, belongs f⟩ request known).gives kept trivial
  have trusts : Trusts ⟨sys, u, false⟩ f := f.every_coalition.mpr fun names coalition t found => .inr (same names coalition t found)
  obtain rfl := told trusts
  rw [truth_congr wf (limited.trans limitedToo.symm) (group.trans groupToo.symm)]
  exact ⟨l, ran⟩

theorem requests_agree_enumerated_lamp : ∃ (sys : System) (u : Options) (states : Region) (k l : Memory), lamp.build = .ok sys ∧
    u.variant = .onRequest ∧ u.caching = true ∧ u.threshold.Fraction ∧
    (satisfying ⟨sys, {}, false⟩ lampQuestion).run {} = (.ok states, k) ∧
    (satisfyingAmong ⟨sys, u, false⟩ lampQuestion sys.init).run (after ⟨sys, u, false⟩ [.all lampQuestion]) =
      (.ok (states.inter sys.init), l) := by
  obtain ⟨sys, t, built, named, same, commas, ⟨states, k, found⟩, _⟩ := lamp_answered
  let u : Options := { variant := .onRequest, separation := .random, early := .threshold, caching := true }
  have fraction : u.threshold.Fraction := by
    show (Binary64.finite false (2 ^ 52) (-53)).Fraction
    exact ⟨by decide, by decide⟩
  have plain : lampQuestion.Plain := ⟨by simp [PlainNames], by simp [Formula.Every]⟩
  have plainToo : ∀ q ∈ [Question.all lampQuestion], q.formula.Plain := fun q listed => by
    rw [List.mem_singleton.mp listed]
    exact plain
  have own : ∀ names ∈ lampQuestion.coalitions, ∀ w, sys.teamOf names = .ok w → sys.SameActions w := by
    intro names listed w found
    rw [List.mem_singleton.mp listed, named] at found
    exact Except.ok.inj found ▸ same
  have wf := lamp.build_well_formed sys built
  obtain ⟨l, ran⟩ := requests_agree_enumerated (u := u) built commas rfl rfl rfl rfl rfl rfl fraction plain own found
    (by simp [Question.Clear]) plainToo wf.init
  exact ⟨sys, u, states, k, l, built, rfl, rfl, fraction, found, ran⟩

-- The region that is answered to a formula after some questions.
def AnswersAll (ev : Evaluator) (asked : List Question) (f : Formula) (r : Region) : Prop :=
  ∃ n, (ev.satisfying f).run (ev.after asked) = (.ok r, n)

theorem AnswersAll.everywhere {asked : List Question} {r : Region} (answered : ev.AnswersAll asked f r)
    (other : ev.options.variant ≠ .onRequest) (g : Formula) : ev.satisfying g = ev.everywhere g := by
  obtain ⟨n, found⟩ := answered
  unfold satisfying onAll at found ⊢
  rw [if_neg other] at found ⊢
  split at found
  · cases found
  · exact if_neg ‹_›

def AnswersAmong (ev : Evaluator) (asked : List Question) (f : Formula) (request r : Region) : Prop :=
  ∃ n, (ev.satisfyingAmong f request).run (ev.after asked) = (.ok r, n)

-- Requests for the states of a formula are answered as on all states, whatever was asked before: the search for partial strategies leaves
-- out none that wins, and what is remembered is looked up under one key for each thing.
structure Reliable (ev : Evaluator) (earlier : List Question) (f : Formula) : Prop where
  onRequest : ev.options.variant = .onRequest
  running : ev.cancelled = false
  group : ev.options.observability = .limited → ev.options.semantics = .group
  fraction : ev.options.observability = .limited → ev.options.threshold.Fraction
  actions : ev.options.observability = .full ∨ ∀ names ∈ f.coalitions, ∀ t, ev.sys.teamOf names = .ok t → ev.sys.SameActions t
  apart : KeyedApart (ev.sys.TeamIn (.all f :: earlier))
  clear : ∀ q ∈ earlier, q.Clear ev.sys
  plain : ev.options.caching = true → f.Plain ∧ ∀ q ∈ earlier, q.formula.Plain

namespace Reliable

variable {earlier : List Question} {certain : Prop} {g : Formula} (reliable : ev.Reliable earlier f) (wf : ev.sys.WellFormed)

include reliable

theorem trusts (coalitions : g.coalitions = f.coalitions) : ev.Trusts g := g.every_coalition.mpr fun names coalition t found =>
  reliable.actions.imp id fun same => same names (coalitions ▸ coalition) t found

include wf

theorem query (plain : ev.options.caching = true → g.Plain) (resolves : must → g.Resolves ev.sys)
    (belongs : ∀ names ∈ g.coalitions, ∀ t, ev.sys.teamOf names = .ok t → ev.sys.TeamIn (.all f :: earlier) t) :
    (ev.query g).Answers ev (.plain (ev.sys.TeamIn (.all f :: earlier)) certain) must g :=
  query_answers wf (fun _ => reliable.running) reliable.group reliable.apart (fun limited _ _ => (reliable.fraction limited).reduces) g
    ⟨fun remembers => plain ((Bool.and_eq_true _ _).mp remembers).2, resolves, belongs⟩

theorem assured {asked : List Question} (before : asked ⊆ earlier) :
    ev.Assured (.plain (ev.sys.TeamIn (.all f :: earlier)) certain) (ev.after asked) :=
  answers_honest wf reliable.onRequest (fun q listed => reliable.query wf (fun caching => (reliable.plain caching).2 q (before listed))
    False.elim fun names coalition _ found => ⟨q, List.mem_cons_of_mem _ (before listed), names, coalition, found⟩)
    fun q listed => reliable.clear q (before listed)

theorem answers {asked : List Question} (before : asked ⊆ earlier) (coalitions : g.coalitions = f.coalitions) (plain : f.Plain → g.Plain)
    (resolves : g.Resolves ev.sys) {request : Region} (known : ev.sys.StateSet request) :
    ev.AnswersAmong asked g request ((ev.truth g).inter request) := by
  have answers : (ev.query g).Answers ev (ev.sys.TeamIn (.all f :: earlier)) True g :=
    reliable.query wf (fun caching => plain (reliable.plain caching).1) (fun _ => resolves) fun names coalition _ found =>
      ⟨.all f, List.mem_cons_self, names, coalitions ▸ coalition, found⟩
  obtain ⟨r, l, ran, _, _, told⟩ := (answers.tells request known).gives (reliable.assured wf before) trivial
  exact ⟨l, told (reliable.trusts coalitions) ▸ ran⟩

end Reliable

def lampOptions : Options := { variant := .onRequest, separation := .random, early := .threshold, caching := true }

theorem lamp_reliable {sys : System} {t : Team} (named : sys.teamOf ["hand"] = .ok t) (same : sys.SameActions t) {earlier : List Question}
    (only : ∀ q ∈ .all f :: earlier, ∀ names ∈ q.formula.coalitions, names = ["hand"]) (clear : ∀ q ∈ earlier, q.Clear sys)
    (plain : ∀ q ∈ .all f :: earlier, q.formula.Plain) : Reliable ⟨sys, lampOptions, false⟩ earlier f where
  onRequest := rfl
  running := rfl
  group _ := rfl
  fraction _ := by
    show (Binary64.finite false (2 ^ 52) (-53)).Fraction
    exact ⟨by decide, by decide⟩
  actions := .inr fun names coalition u found => by
    rw [only _ List.mem_cons_self names coalition, named] at found
    exact Except.ok.inj found ▸ same
  apart := sys.apart_of_single only
  clear := clear
  plain _ := List.forall_mem_cons.mp plain

end Evaluator

end Coalition
