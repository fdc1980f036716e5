import Coalition.Proofs.Evaluation.Kept
import Coalition.Proofs.Model.Names

-- Requests answered from memory agree with the evaluation on all states, if coalitions see everything and no search is made.

set_option autoImplicit false

namespace Coalition

open Eval

def Formula.PlainAtoms (f : Formula) : Prop := f.Every (fun text => '\'' ∉ text.toList) (fun _ => True) fun _ => True

namespace System

variable {sys : System}

theorem plain_of_resolves (quotes : ∀ name ∈ sys.agents.map (·.name) ++ sys.groups.map (·.name), '\'' ∉ name.toList) {f : Formula}
    (plain : f.PlainAtoms) (resolves : f.Resolves sys) : f.Plain := by
  have named : ∀ names, (∃ t, sys.teamOf names = .ok t) → PlainNames names := fun names ⟨t, found⟩ name listed =>
    quotes name (sys.team_of_named names t found name listed)
  induction f with
  | constant => trivial
  | atom text => exact plain
  | not body ih => exact ih plain resolves
  | path quantifier modality body ih => exact ih plain resolves
  | binary op left right leftIh rightIh => exact ⟨leftIh plain.1 resolves.1, rightIh plain.2 resolves.2⟩
  | pathUntil quantifier kind left right leftIh rightIh => exact ⟨leftIh plain.1 resolves.1, rightIh plain.2 resolves.2⟩
  | agentKnows certainty agent body ih => exact ⟨named _ resolves.1, ih plain.2 resolves.2⟩
  | groupKnows certainty sharing names body ih => exact ⟨named _ resolves.1, ih plain.2 resolves.2⟩
  | strategic ability names modality body ih => exact ⟨named _ resolves.1, ih plain.2 resolves.2⟩
  | strategicUntil ability names kind left right leftIh rightIh =>
      exact ⟨named _ resolves.1, leftIh plain.2.1 resolves.2.1, rightIh plain.2.2 resolves.2.2⟩

end System

namespace Evaluator

variable {ev : Evaluator} {teams : Team → Prop} {must : Prop} {f : Formula}

theorem full_answers (wf : ev.sys.WellFormed) (ready : must → ev.cancelled = false) (full : ev.options.observability = .full)
    (apart : KeyedApart teams) (fits : ev.Fits teams must f) : (ev.query f).Answers ev teams must f := by
  have sees : ¬ ev.options.observability = .limited := by simp [full]
  exact query_answers wf ready (fun limited => absurd limited sees) apart (fun limited => absurd limited sees) f fits

theorem split_filter_truth (wf : ev.sys.WellFormed) (enumerates : ev.options.variant = .splitFilter) (apart : KeyedApart teams)
    (belongs : ∀ names ∈ f.coalitions, ∀ t, ev.sys.teamOf names = .ok t → teams t) {states : Region} {k : Memory}
    (found : (ev.satisfying f).run {} = (.ok states, k)) : states = ev.truth f ∧ f.Resolves ev.sys := by
  have splits : ev.choosing .splitFilter = ev := by
    unfold choosing
    rw [← enumerates]
  have answered : ev.AnswersAll [] f states := ⟨k, found⟩
  rw [answered.everywhere (by simp [enumerates])] at found
  exact ((everywhere_shows wf splits apart f belongs).ok (empty_honest _ _) found).2

/-- If coalitions see everything, requests give the answers that the evaluation on all states gives, whatever was asked before; and what
is remembered of a formula holds exactly where it says. -/
theorem requests_agree_cached {d : Description} {sys : System} (built : d.build = .ok sys)
    (names : ∀ name ∈ sys.agents.map (·.name) ++ sys.groups.map (·.name), ',' ∉ name.toList ∧ '\'' ∉ name.toList) {o u : Options}
    {stopped : Bool} (enumerates : o.variant = .splitFilter) (onRequest : u.variant = .onRequest) (full : o.observability = .full)
    (fullToo : u.observability = .full) (semantics : o.semantics = u.semantics) (plain : f.PlainAtoms) {states : Region} {k : Memory}
    (found : (satisfying ⟨sys, o, stopped⟩ f).run {} = (.ok states, k)) {earlier : List Question} (clear : ∀ q ∈ earlier, q.Clear sys)
    (plainToo : u.caching = true → ∀ q ∈ earlier, q.formula.Plain) :
    (∀ request, sys.StateSet request →
      ∃ l, (satisfyingAmong ⟨sys, u, false⟩ f request).run (after ⟨sys, u, false⟩ earlier) = (.ok (states.inter request), l)) ∧
    ∀ key known, (key, known) ∈ (after ⟨sys, u, false⟩ earlier).answers.entries → known.Sorted sys ∧
      (u.caching = true → key = f.text → known.yes.members ⊆ states.members ∧ ∀ ρ ∈ known.no.members, ρ ∉ states.members) := by
  have wf := d.build_well_formed _ built
  have apart := named_apart wf fun a listed => (names _ (List.mem_append_left _ (List.mem_map_of_mem listed))).1
  have belongs : ∀ g : Formula, ∀ names ∈ g.coalitions, ∀ t, sys.teamOf names = .ok t → ∃ listed, sys.teamOf listed = .ok t :=
    fun _ names _ t found => ⟨names, found⟩
  obtain ⟨rfl, resolves⟩ := @split_filter_truth ⟨sys, o, stopped⟩ _ f wf enumerates apart (belongs f) states k found
  have plainTexts := sys.plain_of_resolves (fun name listed => (names name listed).2) plain resolves
  rw [truth_congr wf (full.trans fullToo.symm) semantics]
  let ev : Evaluator := ⟨sys, u, false⟩
  have cached : ev.remembers = true → u.caching = true := fun remembers => ((Bool.and_eq_true _ _).mp remembers).2
  have answers : ∀ q ∈ earlier, (ev.query q.formula).Answers ev _ False q.formula := fun q listed =>
    full_answers wf False.elim fullToo apart ⟨fun remembers => plainToo (cached remembers) q listed, False.elim, belongs q.formula⟩
  have honest := answers_honest wf onRequest answers clear
  have trusts : ev.Trusts f := f.every_coalition.mpr fun _ _ _ _ => .inl fullToo
  constructor
  · intro request known
    have fits : ev.Fits _ True f := ⟨fun _ => plainTexts, fun _ => resolves, belongs f⟩
    obtain ⟨r, l, ran, _, _, told⟩ := ((full_answers wf (fun _ => rfl) fullToo apart fits).tells request known).gives honest trivial
    exact ⟨l, told trusts ▸ ran⟩
  · intro key known listed
    have kept : (ev.after earlier).Kept sys fun _ => True := after_kept wf clear fun _ _ => trivial
    refine ⟨kept.answers _ listed, fun caching same => ?_⟩
    have remembers : ev.remembers = true := (Bool.and_eq_true _ _).mpr ⟨decide_eq_true onRequest, caching⟩
    exact (honest.answers remembers _ listed).right f plainTexts trusts same.symm

theorem lamp_remembered : ∃ sys, lamp.build = .ok sys ∧
    (∀ name ∈ sys.agents.map (·.name) ++ sys.groups.map (·.name), ',' ∉ name.toList ∧ '\'' ∉ name.toList) ∧
    (∃ states k, (satisfying ⟨sys, { observability := .full }, false⟩ lampQuestion).run {} = (.ok states, k)) ∧
    ∃ known, (lampQuestion.text, known) ∈ (after ⟨sys, { variant := .onRequest, observability := .full, caching := true }, false⟩
      [.all lampQuestion]).answers.entries := by
  have works : (do
      let sys ← lamp.build
      let _ ← ((satisfying ⟨sys, { observability := .full }, false⟩ lampQuestion).run {}).1
      return ((after ⟨sys, { variant := .onRequest, observability := .full, caching := true }, false⟩ [.all lampQuestion]).answers.find?
          lampQuestion.text).isSome &&
        Decidable.decide (∀ name ∈ sys.agents.map (·.name) ++ sys.groups.map (·.name), ',' ∉ name.toList ∧ '\'' ∉ name.toList) :
      Except Error Bool).toOption = some true := by decide +kernel
  obtain ⟨sys, built, rest⟩ := ok_of_bind (ok_of_to_option works)
  obtain ⟨states, ran, rest⟩ := ok_of_bind rest
  obtain ⟨remembered, names⟩ := (Bool.and_eq_true _ _).mp (Except.ok.inj rest)
  obtain ⟨known, found⟩ := Option.isSome_iff_exists.mp remembered
  exact ⟨sys, built, of_decide_eq_true names, ⟨states, _, Prod.ext ran rfl⟩, known, lookup_listed found⟩

theorem requests_agree_cached_lamp : ∃ (sys : System) (o u : Options) (states : Region) (known : Known) (k l : Memory),
    lamp.build = .ok sys ∧ o.variant = .splitFilter ∧ u.variant = .onRequest ∧ u.caching = true ∧ u.observability = .full ∧
    (satisfying ⟨sys, o, false⟩ lampQuestion).run {} = (.ok states, k) ∧
    (satisfyingAmong ⟨sys, u, false⟩ lampQuestion sys.init).run (after ⟨sys, u, false⟩ [.all lampQuestion]) =
      (.ok (states.inter sys.init), l) ∧
    (lampQuestion.text, known) ∈ (after ⟨sys, u, false⟩ [.all lampQuestion]).answers.entries ∧
    known.yes.members ⊆ states.members ∧ ∀ ρ ∈ known.no.members, ρ ∉ states.members := by
  obtain ⟨sys, built, names, ⟨states, k, found⟩, known, listed⟩ := lamp_remembered
  have plain : lampQuestion.PlainAtoms := ⟨trivial, by simp [Formula.Every]⟩
  have plainToo : ∀ q ∈ [Question.all lampQuestion], q.formula.Plain := fun q listed => by
    rw [List.mem_singleton.mp listed]
    exact ⟨by simp [PlainNames], by simp [Formula.Every]⟩
  have clear : ∀ q ∈ [Question.all lampQuestion], q.Clear sys := by simp [Question.Clear]
  have spec := requests_agree_cached (o := { observability := .full }) (u := { variant := .onRequest, observability := .full, caching := true })
    built names rfl rfl rfl rfl rfl plain found clear fun _ => plainToo
  obtain ⟨l, ran⟩ := spec.1 sys.init (lamp.build_well_formed sys built).init
  have agrees := (spec.2 _ known listed).2 rfl rfl
  exact ⟨sys, _, _, states, known, k, l, built, rfl, rfl, rfl, rfl, found, ran, listed, agrees⟩

end Evaluator

end Coalition
