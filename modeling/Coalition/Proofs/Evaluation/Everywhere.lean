import Coalition.Proofs.Evaluation.Reached
import Coalition.Proofs.Evaluation.Truth

-- Honest memories, and the evaluation on all states.

set_option autoImplicit false

namespace Coalition

structure Keys where
  teams : Team → Prop
  texts : String → Prop
  apart : TextsApart texts

abbrev Keys.plain (teams : Team → Prop) : Keys := ⟨teams, fun text => '\'' ∉ text.toList, plain_apart⟩

instance : Coe (Team → Prop) Keys := ⟨Keys.plain⟩

namespace Evaluator

-- The search for strategies does not leave out any that wins: the coalitions see everything, or may do the same wherever they see the
-- same.
def Trusts (ev : Evaluator) (f : Formula) : Prop :=
  f.Every (fun _ => True) (fun _ => True) fun names => ∀ t, ev.sys.teamOf names = .ok t →
    ev.options.observability = .full ∨ ev.sys.SameActions t

structure Vouches (ev : Evaluator) (keys : Keys) (key : String) (known : Known) : Prop where
  yes : ev.sys.StateSet known.yes
  no : ev.sys.StateSet known.no
  right : ∀ f : Formula, f.Keyed keys.texts → ev.Trusts f → f.text = key →
    known.yes.members ⊆ (ev.truth f).members ∧ ∀ ρ ∈ known.no.members, ρ ∉ (ev.truth f).members

-- What is remembered for some teams is theirs, the fair states are those of the system, and answers agree with the formulas.
structure Honest (ev : Evaluator) (keys : Keys) (m : Memory) : Prop where
  owns : ∀ u, keys.teams u → m.Owns ev.sys u
  fair : ∀ fair ∈ m.fair, fair = ev.sys.fairStates.value
  answers : ev.remembers = true → ∀ entry ∈ m.answers.entries, ev.Vouches keys entry.1 entry.2

theorem empty_honest (ev : Evaluator) (keys : Keys) : ev.Honest keys {} :=
  ⟨fun u _ => Memory.empty_owns ev.sys u, by simp, by simp⟩

variable {ev : Evaluator} {keys : Keys} {must : Prop}

theorem honest_lasting : Lasting (ev.Honest keys) := fun _ _ kept =>
  ⟨fun u listed => ⟨(kept.owns u listed).protocol, (kept.owns u listed).unfair, (kept.owns u listed).fair⟩, kept.fair, kept.answers⟩

theorem meets_serves {α : Type} {x : Eval α} {a : α}
    (serves : ∀ m : Memory, (∀ u, keys.teams u → m.Owns ev.sys u) → Eval.Serves ev.sys keys.teams x m a) :
    Eval.Meets (ev.Honest keys) must x fun b => b = a := by
  refine Eval.meets_of_ends fun m kept => Eval.ends_mono (serves m kept.owns) fun b n known => ?_
  obtain ⟨same, owns, fair, answers⟩ := known
  exact ⟨same, owns, fair ▸ kept.fair, answers ▸ kept.answers⟩

theorem meets_fair_states : Eval.Meets (ev.Honest keys) must ev.fairStates fun r => r = ev.sys.fairStates.value := by
  refine Eval.meets_of_ends fun m kept => ?_
  obtain ⟨c, ran⟩ := Eval.fair_states_run ev kept.fair
  refine ⟨_, _, ran, rfl, fun u listed => ?_, by simp, kept.answers⟩
  exact ⟨(kept.owns u listed).protocol, (kept.owns u listed).unfair, (kept.owns u listed).fair⟩

theorem possible_meets {I : Memory → Prop} (lasting : Lasting I) (fairly : Eval.Meets I must ev.fairStates fun r => r = ev.sys.fairStates.value)
    (sharing : Sharing) (t : Team) (states : Region) :
    Eval.Meets I must (ev.possible sharing t states) fun r => r = ev.suspected sharing t states := by
  cases sharing with
  | distributed =>
      refine Eval.meets_bind fairly fun fair same => Eval.meets_pure ?_
      rw [same]
      rfl
  | everyone =>
      unfold Evaluator.possible suspected
      dsimp only
      split
      · exact Eval.meets_pure rfl
      · refine Eval.meets_bind fairly fun fair same => Eval.meets_pure ?_
        rw [same]
  | common =>
      unfold Evaluator.possible suspected
      dsimp only
      split
      · exact Eval.meets_counted lasting rfl
      · refine Eval.meets_bind fairly fun fair same => Eval.meets_counted lasting ?_
        rw [same]

theorem meets_possible (sharing : Sharing) (t : Team) (states : Region) :
    Eval.Meets (ev.Honest keys) must (ev.possible sharing t states) fun r => r = ev.suspected sharing t states :=
  possible_meets honest_lasting meets_fair_states sharing t states

abbrev Shows (ev : Evaluator) (keys : Keys) (must : Prop) (x : Eval Region) (X : Region) (R : Prop) : Prop :=
  Eval.Meets (ev.Honest keys) must x fun r => r = X ∧ R

variable {x y : Eval Region} {X Y : Region} {R S : Prop}

theorem shows_negate (first : ev.Shows keys must x X R) : ev.Shows keys must (ev.negate x) (ev.sys.statesOutside X) R :=
  Eval.meets_bind first fun _ found => Eval.meets_pure ⟨found.1 ▸ rfl, found.2⟩

theorem shows_both (first : ev.Shows keys must x X R) (second : ev.Shows keys must y Y S) : ev.Shows keys must (both x y) (X.inter Y) (R ∧ S) :=
  Eval.meets_bind first fun _ found => Eval.meets_bind second fun _ other =>
    Eval.meets_pure ⟨found.1 ▸ other.1 ▸ rfl, found.2, other.2⟩

theorem shows_either (first : ev.Shows keys must x X R) (second : ev.Shows keys must y Y S) : ev.Shows keys must (either x y) (X.union Y) (R ∧ S) :=
  Eval.meets_bind first fun _ found => Eval.meets_bind second fun _ other =>
    Eval.meets_pure ⟨found.1 ▸ other.1 ▸ rfl, found.2, other.2⟩

theorem shows_equally (first : ev.Shows keys must x X R) (second : ev.Shows keys must y Y S) :
    ev.Shows keys must (ev.equally x y) ((X.iff Y).inter ev.sys.statesMask) (R ∧ S) :=
  Eval.meets_bind first fun _ found => Eval.meets_bind second fun _ other =>
    Eval.meets_pure ⟨found.1 ▸ other.1 ▸ rfl, found.2, other.2⟩

theorem shows_some_next (first : ev.Shows keys must x X R) :
    ev.Shows keys must (ev.someNext x) (ev.sys.someNext ev.sys.fairStates.value X) R :=
  Eval.meets_bind first fun _ found => Eval.meets_bind meets_fair_states fun _ fair =>
    Eval.meets_pure ⟨found.1 ▸ fair ▸ rfl, found.2⟩

theorem shows_some_always (first : ev.Shows keys must x X R) : ev.Shows keys must (ev.someAlways x) (ev.sys.someAlways X).value R :=
  Eval.meets_bind first fun _ found => Eval.meets_counted honest_lasting ⟨found.1 ▸ rfl, found.2⟩

theorem shows_some_until (first : ev.Shows keys must x X R) (second : ev.Shows keys must y Y S) :
    ev.Shows keys must (ev.someUntil x y) (ev.sys.someUntil ev.sys.fairStates.value X Y).value (R ∧ S) :=
  Eval.meets_bind first fun _ found => Eval.meets_bind second fun _ other => Eval.meets_bind meets_fair_states fun _ fair =>
    Eval.meets_counted honest_lasting ⟨found.1 ▸ other.1 ▸ fair ▸ rfl, found.2, other.2⟩

theorem shows_atom (text : String) (works : must → ∃ r, ev.sys.atom text = .ok r) :
    ev.Shows keys must (ev.everywhere (.atom text)) (ev.truth (.atom text)) (∃ r, ev.sys.atom text = .ok r) := by
  unfold Evaluator.everywhere truth
  cases found : ev.sys.atom text with
  | error e => exact Eval.meets_throw fun needed => by obtain ⟨_, known⟩ := works needed; rw [found] at known; cases known
  | ok r => exact Eval.meets_pure ⟨rfl, r, rfl⟩

theorem shows_possibly (sharing : Sharing) (names : List String) (first : ev.Shows keys False x X R) :
    ev.Shows keys False (ev.possibly sharing names x) (ev.known .possible sharing names X) ((∃ t, ev.sys.teamOf names = .ok t) ∧ R) := by
  unfold Evaluator.possibly Evaluator.known
  cases found : ev.sys.teamOf names with
  | error e => exact Eval.meets_bind (Eval.meets_throw id) fun _ (impossible : False) => impossible.elim
  | ok t =>
      refine Eval.meets_bind (Eval.meets_of_ok t) fun _ same => Eval.meets_bind first fun _ known => ?_
      subst same
      exact (meets_possible sharing t _).mono fun r same => ⟨same.trans (known.1 ▸ rfl), ⟨t, rfl⟩, known.2⟩

section

variable {teams : Team → Prop} (wf : ev.sys.WellFormed) (splits : ev.choosing .splitFilter = ev) (apart : KeyedApart teams)

include wf splits apart

theorem shows_aim {f : Formula} {aim : Aim} (aims : f.aim? = some aim) (direct : ev.usesDual aim.ability = false)
    (belongs : ∀ t, ev.sys.teamOf aim.names = .ok t → teams t)
    (first : ev.Shows teams False (ev.everywhere aim.left) (ev.truth aim.left) R)
    (second : ev.Shows teams False (ev.everywhere aim.right) (ev.truth aim.right) S) :
    ev.Shows teams False (ev.everywhere f) (ev.truth f) ((∃ t, ev.sys.teamOf aim.names = .ok t) ∧ R ∧ S) := by
  rw [everywhere_aim aims direct, truth_aim aims direct, achieved]
  cases found : ev.sys.teamOf aim.names with
  | error e => exact Eval.meets_bind (Eval.meets_throw id) fun _ (impossible : False) => impossible.elim
  | ok t =>
      refine Eval.meets_bind (Eval.meets_of_ok t) fun _ same => ?_
      subst same
      have serves := (@solution_spec ev wf t (ev.sys.team_of_spec aim.names t found).2 ⟨aim.kind, ev.truth aim.left, ev.truth aim.right⟩
        (truth_state_set wf aim.left) (truth_state_set wf aim.right) aim.ability).2.2.2
      rw [splits] at serves
      refine Eval.meets_bind first fun left known => Eval.meets_bind second fun right other => ?_
      obtain ⟨rfl, holds⟩ := known
      obtain ⟨rfl, holdsToo⟩ := other
      exact (meets_serves fun m owns => serves teams m f apart (belongs t found) owns).mono fun r same => ⟨same, ⟨t, rfl⟩, holds, holdsToo⟩

-- The evaluation shows where the formula holds if its coalitions are teams of these.
abbrev ShowsTruth (ev : Evaluator) (teams : Team → Prop) (f : Formula) : Prop :=
  f.Every (fun _ => True) (fun _ => True) (fun names => ∀ t, ev.sys.teamOf names = .ok t → teams t) →
    ev.Shows teams False (ev.everywhere f) (ev.truth f) (f.Resolves ev.sys)

theorem shows_built : Formula.Built ev.usesDual (ev.ShowsTruth teams) (ev.ShowsTruth teams) where
  forces := rfl
  whole := fun f p each => by
    rw [← everywhere_spelled f, ← truth_spelled f]
    exact (p (f.every_spelled.mpr each)).mono fun _ found => ⟨found.1, f.every_spelled.mp found.2⟩
  constant := fun _ _ => Eval.meets_pure ⟨rfl, trivial⟩
  atom := fun text _ => shows_atom text False.elim
  not := fun _ p each => shows_negate (p each)
  and := fun _ _ p q each => shows_both (p each.1) (q each.2)
  or := fun _ _ p q each => shows_either (p each.1) (q each.2)
  iff := fun _ _ p q each => shows_equally (p each.1) (q each.2)
  next := fun _ p each => shows_some_next (p each)
  always := fun _ p each => shows_some_always (p each)
  strong := fun _ _ p q each => shows_some_until (p each.1) (q each.2)
  agent := fun name _ p each => shows_possibly .distributed [name] (p each.2)
  group := fun sharing names _ p each => shows_possibly sharing names (p each.2)
  aims := fun f aim aims direct p q each => by
    obtain ⟨own, left, right⟩ := (Formula.every_aim aims).mp each
    exact (shows_aim wf splits apart aims direct own (p left) (q right)).mono fun _ found => ⟨found.1, (Formula.every_aim aims).mpr found.2⟩

theorem everywhere_shows (f : Formula) (belongs : ∀ names ∈ f.coalitions, ∀ t, ev.sys.teamOf names = .ok t → teams t) :
    ev.Shows teams False (ev.everywhere f) (ev.truth f) (f.Resolves ev.sys) :=
  (shows_built wf splits apart).all f (f.every_coalition.mpr belongs)

end

end Evaluator

end Coalition
