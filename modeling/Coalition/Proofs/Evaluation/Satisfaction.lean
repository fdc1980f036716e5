import Coalition.Proofs.Evaluation.Agreement
import Coalition.Proofs.Evaluation.FairPath
import Coalition.Proofs.Model.Follows

-- Temporal formulas and their meaning on fair paths.

set_option autoImplicit false

namespace Coalition

def Connective.Joins (p q : Prop) : Connective → Prop
  | .and => p ∧ q
  | .or => p ∨ q
  | .implies => p → q
  | .iff => p ↔ q

def Modality.Along (holds : Valuation → Prop) (path : Nat → Valuation) : Modality → Prop
  | .next => holds (path 1)
  | .eventually => ∃ n, holds (path n)
  | .always => ∀ n, holds (path n)

-- What an until says of a path: `left` holds before `right` does, or all the time if the until is weak.
def Until.Along (left right : Valuation → Prop) (path : Nat → Valuation) : Until → Prop
  | .strong => ∃ n, right (path n) ∧ ∀ i, i < n → left (path i)
  | .weak => (∃ n, right (path n) ∧ ∀ i, i < n → left (path i)) ∨ ∀ n, left (path n)

def Quantifier.Over (paths along : (Nat → Valuation) → Prop) : Quantifier → Prop
  | .some => ∃ path, paths path ∧ along path
  | .all => ∀ path, paths path → along path

namespace Formula

def Temporal (f : Formula) : Prop := f.Every (fun _ => True) (fun _ => False) fun _ => False

@[elab_as_elim]
theorem Temporal.induction {motive : (f : Formula) → f.Temporal → Prop} (constant : ∀ value, motive (.constant value) trivial)
    (atom : ∀ text, motive (.atom text) trivial) (not : ∀ f (p : f.Temporal), motive f p → motive (.not f) p)
    (binary : ∀ op f g (p : f.Temporal) (q : g.Temporal), motive f p → motive g q → motive (.binary op f g) ⟨p, q⟩)
    (path : ∀ quantifier modality f (p : f.Temporal), motive f p → motive (.path quantifier modality f) p)
    (pathUntil : ∀ quantifier kind f g (p : f.Temporal) (q : g.Temporal), motive f p → motive g q →
      motive (.pathUntil quantifier kind f g) ⟨p, q⟩) (f : Formula) (temporal : f.Temporal) : motive f temporal := by
  induction f with
  | constant value => exact constant value
  | atom text => exact atom text
  | not body ih => exact not body temporal (ih temporal)
  | binary op left right leftIh rightIh => exact binary op left right temporal.1 temporal.2 (leftIh temporal.1) (rightIh temporal.2)
  | path quantifier modality body ih => exact path quantifier modality body temporal (ih temporal)
  | pathUntil quantifier kind left right leftIh rightIh =>
      exact pathUntil quantifier kind left right temporal.1 temporal.2 (leftIh temporal.1) (rightIh temporal.2)
  | agentKnows => exact temporal.1.elim
  | groupKnows => exact temporal.1.elim
  | strategic => exact temporal.1.elim
  | strategicUntil => exact temporal.1.elim

theorem Temporal.every {atom : String → Prop} {group coalition group' coalition' : List String → Prop} {f : Formula}
    (temporal : f.Temporal) (holds : f.Every atom group' coalition') : f.Every atom group coalition := by
  induction f, temporal using Temporal.induction with
  | constant value => trivial
  | atom text => exact holds
  | not body _ ih => exact ih holds
  | binary op left right _ _ leftIh rightIh => exact ⟨leftIh holds.1, rightIh holds.2⟩
  | path quantifier modality body _ ih => exact ih holds
  | pathUntil quantifier kind left right _ _ leftIh rightIh => exact ⟨leftIh holds.1, rightIh holds.2⟩

-- The formula holds in a state, where paths are the fair ones. Only temporal formulas are meant.
def HoldsAt (sys : System) : Formula → Valuation → Prop
  | .constant .true, _ => True
  | .constant .false, _ => False
  | .constant .init, s => s ∈ sys.init.members
  | .constant .reachable, s => sys.Reachable s
  | .atom text, s => ∃ r, sys.atom text = .ok r ∧ s ∈ r.members
  | .not body, s => ¬ body.HoldsAt sys s
  | .binary op left right, s => op.Joins (left.HoldsAt sys s) (right.HoldsAt sys s)
  | .path quantifier modality body, s => quantifier.Over (sys.FairPath s) fun path => modality.Along (body.HoldsAt sys) path
  | .pathUntil quantifier kind left right, s =>
      quantifier.Over (sys.FairPath s) fun path => kind.Along (left.HoldsAt sys) (right.HoldsAt sys) path
  | _, _ => False

end Formula

theorem Quantifier.over_all {paths along other : (Nat → Valuation) → Prop} (dual : ∀ path, along path ↔ ¬ other path) :
    Quantifier.all.Over paths along ↔ ¬ ∃ path, paths path ∧ other path := by
  rw [not_exists]
  exact forall_congr' fun path => by rw [not_and, dual]

namespace Until

variable {left right : Valuation → Prop} {path : Nat → Valuation}

theorem weak_dual : weak.Along left right path ↔ ¬ strong.Along (fun s => ¬ right s) (fun s => ¬ left s ∧ ¬ right s) path := by
  constructor
  · rintro (⟨n, there, before⟩ | stays) ⟨m, ⟨off, notThere⟩, waits⟩
    · rcases Nat.lt_trichotomy m n with early | rfl | late
      · exact off (before m early)
      · exact notThere there
      · exact waits n late there
    · exact off (stays m)
  · intro kept
    classical
    by_contra lost
    obtain ⟨reaches, leaves⟩ := not_or.mp lost
    have out : ∃ n, ¬ left (path n) := not_forall.mp leaves
    have first : ∀ i, i < Nat.find out → left (path i) := fun i less => not_not.mp (Nat.find_min out less)
    have notThere : ∀ i, i ≤ Nat.find out → ¬ right (path i) := fun i le there =>
      reaches ⟨i, there, fun j less => first j (lt_of_lt_of_le less le)⟩
    exact kept ⟨Nat.find out, ⟨Nat.find_spec out, notThere _ (Nat.le_refl _)⟩, fun i less => notThere i (Nat.le_of_lt less)⟩

theorem strong_dual : strong.Along left right path ↔
    ¬ (strong.Along (fun s => ¬ right s) (fun s => ¬ left s ∧ ¬ right s) path ∨ ∀ n, ¬ right (path n)) := by
  rw [not_or, ← weak_dual]
  constructor
  · rintro ⟨n, there, before⟩
    exact ⟨.inl ⟨n, there, before⟩, fun never => never n there⟩
  · rintro ⟨reaches | stays, some⟩
    · exact reaches
    · obtain ⟨n, there⟩ := not_forall_not.mp some
      exact ⟨n, there, fun i _ => stays i⟩

end Until

namespace System

variable {sys : System} {X Y : Region} {P Q : Valuation → Prop}

theorem Marks.congr (p : sys.Marks X P) (same : ∀ s, sys.Reachable s → (P s ↔ Q s)) : sys.Marks X Q :=
  ⟨p.states, fun s reached => (p.mem s reached).trans (same s reached)⟩

theorem Marks.union (p : sys.Marks X P) (q : sys.Marks Y Q) : sys.Marks (X.union Y) fun s => P s ∨ Q s := by
  refine ⟨p.states.union q.states, fun s reached => ?_⟩
  rw [Region.members_union, Set.mem_union, p.mem s reached, q.mem s reached]

theorem Marks.inter (p : sys.Marks X P) (q : sys.Marks Y Q) : sys.Marks (X.inter Y) fun s => P s ∧ Q s := by
  refine ⟨p.states.inter q.states.reads, fun s reached => ?_⟩
  rw [Region.members_inter, Set.mem_inter_iff, p.mem s reached, q.mem s reached]

end System

namespace Evaluator

variable {ev : Evaluator} {f g : Formula}

section

variable (wf : ev.sys.WellFormed) (p : ev.sys.Marks (ev.truth f) (f.HoldsAt ev.sys)) (q : ev.sys.Marks (ev.truth g) (g.HoldsAt ev.sys))

include wf p

theorem truth_path (quantifier : Quantifier) (modality : Modality) :
    ev.sys.Marks (ev.truth (.path quantifier modality f)) ((Formula.path quantifier modality f).HoldsAt ev.sys) := by
  have all : ev.sys.Marks ev.sys.statesMask fun _ => True :=
    ⟨.mask _, fun s reached => iff_true_intro (wf.reachable_state_set.inside (wf.mem_of_reachable reached))⟩
  have notP := wf.marks_outside p
  cases quantifier <;> cases modality
  · exact wf.marks_next p
  · refine (wf.marks_until all p).congr fun s _ => exists_congr fun path => and_congr_right fun _ => exists_congr fun n => ?_
    exact and_iff_left fun _ _ => trivial
  · exact wf.marks_always p
  · exact (wf.marks_outside (wf.marks_next notP)).congr fun s _ => (Quantifier.over_all fun _ => not_not.symm).symm
  · exact (wf.marks_outside (wf.marks_always notP)).congr fun s _ => (Quantifier.over_all fun _ => not_forall_not.symm).symm
  · refine (wf.marks_outside (wf.marks_until all notP)).congr fun s _ => (Quantifier.over_all fun path => ?_).symm
    simp [Modality.Along]

include q

theorem truth_binary (op : Connective) : ev.sys.Marks (ev.truth (.binary op f g)) ((Formula.binary op f g).HoldsAt ev.sys) := by
  refine ⟨truth_state_set wf _, fun s reached => ?_⟩
  have inside : s ∈ ev.sys.statesMask.members := wf.reachable_state_set.inside (wf.mem_of_reachable reached)
  show s ∈ (ev.truth (.binary op f g)).members ↔ op.Joins (f.HoldsAt ev.sys s) (g.HoldsAt ev.sys s)
  rw [← p.mem s reached, ← q.mem s reached]
  cases op with
  | and => simp [truth, Connective.Joins]
  | or => simp [truth, Connective.Joins]
  | implies => simp [truth, Connective.Joins, Frame.statesOutside, inside, imp_iff_not_or]
  | iff => simp [truth, Connective.Joins, inside, Region.mem_iff]

theorem truth_path_until (quantifier : Quantifier) (kind : Until) :
    ev.sys.Marks (ev.truth (.pathUntil quantifier kind f g)) ((Formula.pathUntil quantifier kind f g).HoldsAt ev.sys) := by
  have notP := wf.marks_outside p
  have notQ := wf.marks_outside q
  have never := wf.marks_always notQ
  have lost := wf.marks_until notQ (notP.inter notQ)
  cases quantifier <;> cases kind
  · exact wf.marks_until p q
  · refine ((wf.marks_until p q).union (wf.marks_always p)).congr fun s _ => ?_
    rw [← exists_or]
    exact exists_congr fun path => and_or_left.symm
  · refine (wf.marks_outside (lost.union never)).congr fun s _ => ?_
    rw [← exists_or]
    simp only [← and_or_left]
    exact (Quantifier.over_all fun _ => Until.strong_dual).symm
  · exact (wf.marks_outside lost).congr fun s _ => (Quantifier.over_all fun _ => Until.weak_dual).symm

end

theorem truth_holds (wf : ev.sys.WellFormed) (f : Formula) (temporal : f.Temporal) : ev.sys.Marks (ev.truth f) (f.HoldsAt ev.sys) := by
  induction f, temporal using Formula.Temporal.induction with
  | constant value =>
      refine ⟨truth_state_set wf _, fun s reached => ?_⟩
      have here := wf.mem_of_reachable reached
      cases value with
      | true => exact iff_true_intro (wf.reachable_state_set.inside here)
      | false => simp [truth, constant, Formula.HoldsAt]
      | init => exact Iff.rfl
      | reachable => exact iff_of_true here reached
  | atom text =>
      refine ⟨truth_state_set wf _, fun s _ => ?_⟩
      unfold truth Formula.HoldsAt
      cases found : ev.sys.atom text with
      | error e => simp [Except.toOption]
      | ok r => simp [Except.toOption]
  | not body _ ih => exact wf.marks_outside ih
  | binary op left right _ _ leftIh rightIh => exact truth_binary wf leftIh rightIh op
  | path quantifier modality body _ ih => exact truth_path wf ih quantifier modality
  | pathUntil quantifier kind left right _ _ leftIh rightIh =>
      exact truth_path_until wf leftIh rightIh quantifier kind

variable {keys : Keys} {must : Prop}

abbrev ShowsTemporal (ev : Evaluator) (keys : Keys) (must : Prop) (f : Formula) : Prop :=
  f.Temporal → (must → f.Resolves ev.sys) → ev.Shows keys must (ev.everywhere f) (ev.truth f) True

theorem temporal_built : Formula.Built ev.usesDual (ev.ShowsTemporal keys must) (ev.ShowsTemporal keys must) where
  forces := rfl
  whole := fun f p temporal resolves => by
    rw [← everywhere_spelled f, ← truth_spelled f]
    exact p (f.every_spelled.mpr temporal) fun needed => f.every_spelled.mpr (resolves needed)
  constant := fun _ _ _ => Eval.meets_pure ⟨rfl, trivial⟩
  atom := fun text _ resolves => (shows_atom text resolves).mono fun _ found => ⟨found.1, trivial⟩
  not := fun _ p temporal resolves => shows_negate (p temporal resolves)
  and := fun _ _ p q temporal resolves =>
    (shows_both (p temporal.1 fun needed => (resolves needed).1) (q temporal.2 fun needed => (resolves needed).2)).mono
      fun _ found => ⟨found.1, trivial⟩
  or := fun _ _ p q temporal resolves =>
    (shows_either (p temporal.1 fun needed => (resolves needed).1) (q temporal.2 fun needed => (resolves needed).2)).mono
      fun _ found => ⟨found.1, trivial⟩
  iff := fun _ _ p q temporal resolves =>
    (shows_equally (p temporal.1 fun needed => (resolves needed).1) (q temporal.2 fun needed => (resolves needed).2)).mono
      fun _ found => ⟨found.1, trivial⟩
  next := fun _ p temporal resolves => shows_some_next (p temporal resolves)
  always := fun _ p temporal resolves => shows_some_always (p temporal resolves)
  strong := fun _ _ p q temporal resolves =>
    (shows_some_until (p temporal.1 fun needed => (resolves needed).1) (q temporal.2 fun needed => (resolves needed).2)).mono
      fun _ found => ⟨found.1, trivial⟩
  agent := fun _ _ _ temporal => temporal.1.elim
  group := fun _ _ _ _ temporal => temporal.1.elim
  aims := fun _ _ aims _ _ _ temporal => ((Formula.every_aim aims).mp temporal).1.elim

theorem temporal_shows (f : Formula) (temporal : f.Temporal) (resolves : must → f.Resolves ev.sys) :
    ev.Shows keys must (ev.everywhere f) (ev.truth f) True :=
  temporal_built.all f temporal resolves

theorem temporal_answers (wf : ev.sys.WellFormed) (ready : must → ev.cancelled = false) (f : Formula) (temporal : f.Temporal)
    (keyed : ev.remembers = true → f.Keyed keys.texts) (resolves : must → f.Resolves ev.sys) : (ev.query f).Answers ev keys must f :=
  (@answers_built ev keys must (fun _ => False) wf ready fun _ _ aims _ asked => ((Formula.every_aim aims).mp asked.belongs).1.elim).all f
    ⟨keyed, resolves, temporal.every temporal⟩

theorem temporal_meets (wf : ev.sys.WellFormed) (ready : must → ev.cancelled = false) (temporal : f.Temporal)
    (keyed : ev.remembers = true → f.Keyed keys.texts) (resolves : must → f.Resolves ev.sys) :
    Eval.Meets (ev.Honest keys) must (ev.satisfying f) fun r => r = ev.truth f := by
  by_cases onRequest : ev.options.variant = .onRequest
  · have answers : (ev.query f).Answers ev keys must f := temporal_answers wf ready f temporal keyed resolves
    exact (meets_honest (all_meets wf onRequest answers)).mono fun r found => found.2 (temporal.every temporal)
  · unfold satisfying onAll
    rw [if_neg onRequest]
    split
    · rename_i stopped
      exact Eval.meets_throw fun needed => by rw [ready needed] at stopped; cases stopped
    · exact (temporal_shows f temporal resolves).mono fun _ found => found.1

def atomKeys (sys : System) : Keys := ⟨fun _ => False, fun text => ∃ r, sys.atom text = .ok r, fun _ _ ⟨_, here⟩ ⟨_, there⟩ =>
  sys.atom_apart here there⟩

/-- A temporal formula whose atoms can be read is evaluated to the reachable states where it holds on the fair paths, in any variant,
and honest memories stay honest. -/
theorem temporal_formulas_hold {d : Description} (built : d.build = .ok ev.sys) (running : ev.cancelled = false)
    (temporal : f.Temporal) (resolves : f.Resolves ev.sys) {m : Memory} (honest : ev.Honest (atomKeys ev.sys) m) :
    ∃ r n, (ev.satisfying f).run m = (.ok r, n) ∧ ev.Honest (atomKeys ev.sys) n ∧
      ∀ s, ev.sys.Reachable s → (s ∈ r.members ↔ f.HoldsAt ev.sys s) := by
  have wf := d.build_well_formed _ built
  have meets : Eval.Meets (ev.Honest (atomKeys ev.sys)) True (ev.satisfying f) fun r => r = ev.truth f :=
    temporal_meets wf (fun _ => running) temporal (fun _ => temporal.every resolves) fun _ => resolves
  obtain ⟨r, n, ran, kept, rfl⟩ := meets.gives honest trivial
  exact ⟨_, n, ran, kept, (truth_holds wf f temporal).mem⟩

def lampPromise : Formula :=
  .path .all .always (.pathUntil .all .weak (.atom "on = no") (.path .all .eventually (.atom "on = yes")))

theorem busy_lamp_promises : ∃ sys, busyLamp.build = .ok sys ∧ lampPromise.Resolves sys := by
  have works : (do
      let sys ← busyLamp.build
      return (sys.atom "on = no").isOk && (sys.atom "on = yes").isOk).toOption = some true := by decide +kernel
  obtain ⟨sys, built, rest⟩ := ok_of_bind (ok_of_to_option works)
  obtain ⟨dark, lit⟩ := (Bool.and_eq_true _ _).mp (Except.ok.inj rest)
  exact ⟨sys, built, ok_of_is_ok dark, ok_of_is_ok lit⟩

theorem temporal_formulas_hold_busy_lamp : ∃ (ev : Evaluator), busyLamp.build = .ok ev.sys ∧ ev.options.variant = .onRequest ∧
    ev.options.caching = true ∧ ev.cancelled = false ∧ lampPromise.Temporal ∧ lampPromise.Resolves ev.sys ∧
      ev.Honest (atomKeys ev.sys) {} ∧ ∃ r n, (ev.satisfying lampPromise).run {} = (.ok r, n) ∧ ev.Honest (atomKeys ev.sys) n ∧
        ∀ s, ev.sys.Reachable s → (s ∈ r.members ↔ lampPromise.HoldsAt ev.sys s) := by
  obtain ⟨sys, built, resolves⟩ := busy_lamp_promises
  have temporal : lampPromise.Temporal := ⟨trivial, trivial⟩
  generalize chosen : ({ variant := .onRequest, caching := true } : Options) = options
  have honest := empty_honest ⟨sys, options, false⟩ (atomKeys sys)
  have holds := @temporal_formulas_hold ⟨sys, options, false⟩ lampPromise busyLamp built rfl temporal resolves {} honest
  exact ⟨⟨sys, options, false⟩, built, chosen ▸ rfl, chosen ▸ rfl, rfl, temporal, resolves, honest, holds⟩

end Evaluator

end Coalition
