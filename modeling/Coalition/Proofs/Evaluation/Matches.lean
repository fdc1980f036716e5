import Coalition.Proofs.Evaluation.Refine
import Coalition.Proofs.Strategy.Constraints

-- Evaluations that run alike on two systems, which may differ in their fairness constraints, and from two memories.

set_option autoImplicit false

namespace Coalition

namespace Eval

variable {α β : Type} {R : Memory → Memory → Prop} {P P' : α → Prop} {Q : β → Prop} {x y : Eval α} {f g : α → Eval β}

-- From related memories both computations end in one result and leave related memories, and a value has the property.
def Matches (R : Memory → Memory → Prop) (P : α → Prop) (x y : Eval α) : Prop :=
  ∀ m n, R m n → ∃ result k l, x.run m = (result, k) ∧ y.run n = (result, l) ∧ R k l ∧ ∀ a, result = .ok a → P a

theorem matches_pure {a : α} (holds : P a) : Matches R P (pure a) (pure a) := fun m n related =>
  ⟨.ok a, m, n, rfl, rfl, related, fun _ same => Except.ok.inj same ▸ holds⟩

theorem matches_throw (e : Error) : Matches R P (throw e) (throw e) := fun m n related =>
  ⟨.error e, m, n, rfl, rfl, related, nofun⟩

theorem matches_bind (first : Matches R P x y) (next : ∀ a, P a → Matches R Q (f a) (g a)) : Matches R Q (x >>= f) (y >>= g) := by
  intro m n related
  obtain ⟨result, k, l, here, there, still, holds⟩ := first m n related
  cases result with
  | error e => exact ⟨.error e, k, l, run_bind_error here, run_bind_error there, still, nofun⟩
  | ok a =>
      obtain ⟨done, k', l', later, laterToo, kept, ends⟩ := next a (holds a rfl) k l still
      exact ⟨done, k', l', (run_bind here).trans later, (run_bind there).trans laterToo, kept, ends⟩

theorem Matches.mono (alike : Matches R P x y) (le : ∀ a, P a → P' a) : Matches R P' x y := by
  intro m n related
  obtain ⟨result, k, l, here, there, still, holds⟩ := alike m n related
  exact ⟨result, k, l, here, there, still, fun a same => le a (holds a same)⟩

theorem matches_of_except {z : Except Error α} (yields : Yields z P) : Matches R P (ofExcept z) (ofExcept z) := by
  cases z with
  | ok a => exact matches_pure (yields a rfl)
  | error e => exact matches_throw e

theorem matches_get {f g : Memory → Eval β} (next : ∀ m n, R m n → Matches R Q (f m) (g n)) : Matches R Q (get >>= f) (get >>= g) :=
  fun m n related => next m n related m n related

theorem matches_modify {f g : Memory → Memory} (keeps : ∀ m n, R m n → R (f m) (g n)) :
    Matches R (fun _ => True) (modify f : Eval Unit) (modify g) := fun m n related =>
  ⟨.ok (), f m, g n, rfl, rfl, keeps m n related, fun _ _ => trivial⟩

theorem matches_ite {c : Prop} [Decidable c] {x' y' : Eval α} (yes : c → Matches R P x y) (no : ¬ c → Matches R P x' y') :
    Matches R P (if c then x else x') (if c then y else y') := by
  split
  · exact yes ‹c›
  · exact no ‹¬ c›

theorem matches_value {a : α} (holds : P a) (here : ∀ m n, R m n → ∃ k l, x.run m = (.ok a, k) ∧ y.run n = (.ok a, l) ∧ R k l) :
    Matches R P x y := by
  intro m n related
  obtain ⟨k, l, ran, ranToo, still⟩ := here m n related
  exact ⟨.ok a, k, l, ran, ranToo, still, fun _ same => Except.ok.inj same ▸ holds⟩

section

variable {sys : System} (linked : sys.Linked R)

include linked

theorem matches_count (counter : Counter) (i : Nat) : Matches R (fun _ => True) (count counter i) (count counter i) :=
  matches_modify fun m n related => linked.counts m n _ _ related

theorem matches_counted {P : Region → Prop} {c d : Counted Region} (same : d.value = c.value) (holds : P c.value) : Matches R P (counted c) (counted d) := by
  refine matches_value holds fun m n related => ?_
  obtain ⟨count, here⟩ := counted_run c m
  obtain ⟨countToo, there⟩ := counted_run d n
  exact ⟨_, _, here, same ▸ there, linked.counts m n count countToo related⟩

theorem matches_deciding (alike : Matches R P x y) : Matches R P (deciding x) (deciding y) := by
  intro m n related
  obtain ⟨result, k, l, here, there, still, holds⟩ := alike m n related
  exact ⟨result, _, _, deciding_run here, deciding_run there, linked.counts k l _ _ still, holds⟩

end

end Eval

-- Memories of a system and of one with other constraints are related, and fair paths stay in the same states on both.
structure System.Twins (sys : System) (constraints : List Region) (R : Memory → Memory → Prop) : Prop where
  system : sys.WellFormed
  linked : sys.Linked R
  always : ∀ states, sys.StateSet states → ((sys.under constraints).someAlways states).value = (sys.someAlways states).value

namespace Evaluator

open Eval

def under (ev : Evaluator) (constraints : List Region) : Evaluator := { ev with sys := ev.sys.under constraints }

variable {ev : Evaluator} {constraints : List Region} {R : Memory → Memory → Prop} {x y x' y' : Eval Region}

abbrev Agree (ev : Evaluator) (R : Memory → Memory → Prop) (x y : Eval Region) : Prop := Matches R ev.sys.StateSet x y

section

variable (twins : ev.sys.Twins constraints R) (first : ev.Agree R x x') (second : ev.Agree R y y')

theorem matches_both (first : ev.Agree R x x') (second : ev.Agree R y y') : ev.Agree R (both x y) (both x' y') :=
  matches_bind first fun _ known => matches_bind second fun _ other => matches_pure (known.inter other.reads)

theorem matches_either (first : ev.Agree R x x') (second : ev.Agree R y y') : ev.Agree R (either x y) (either x' y') :=
  matches_bind first fun _ known => matches_bind second fun _ other => matches_pure (known.union other)

theorem matches_negate (first : ev.Agree R x x') : ev.Agree R (ev.negate x) ((ev.under constraints).negate x') :=
  matches_bind first fun _ known => matches_pure (.outside known.reads)

theorem matches_equally (first : ev.Agree R x x') (second : ev.Agree R y y') :
    ev.Agree R (ev.equally x y) ((ev.under constraints).equally x' y') :=
  matches_bind first fun _ known => matches_bind second fun _ other =>
    matches_pure ((Frame.StateSet.mask _).within (known.reads.iff other.reads))

include twins

theorem matches_fair_states : Matches R (fun r => r.Reads ev.sys.stateBit) ev.fairStates (ev.under constraints).fairStates := by
  have same : (ev.under constraints).sys.fairStates.value = ev.sys.fairStates.value := twins.always _ (.mask _)
  refine matches_value (twins.system.some_always_spec (.mask _)).1.reads fun m n related => ?_
  obtain ⟨c, here⟩ := fair_states_run ev (twins.linked.left m n related)
  obtain ⟨d, there⟩ := fair_states_run (ev.under constraints) (m := n) (same ▸ twins.linked.right m n related)
  exact ⟨_, _, here, same ▸ there, twins.linked.fair m n c d related⟩

theorem matches_some_next (first : ev.Agree R x x') : ev.Agree R (ev.someNext x) ((ev.under constraints).someNext x') :=
  matches_bind first fun _ known => matches_bind (matches_fair_states twins) fun _ reads =>
    matches_pure (twins.system.some_next_spec reads known).1

theorem matches_some_always (first : ev.Agree R x x') : ev.Agree R (ev.someAlways x) ((ev.under constraints).someAlways x') :=
  matches_bind first fun states known =>
    matches_counted twins.linked (twins.always states known) (twins.system.some_always_spec known).1

theorem matches_some_until (first : ev.Agree R x x') (second : ev.Agree R y y') :
    ev.Agree R (ev.someUntil x y) ((ev.under constraints).someUntil x' y') :=
  matches_bind first fun _ known => matches_bind second fun _ other => matches_bind (matches_fair_states twins) fun _ reads =>
    matches_counted twins.linked rfl (twins.system.some_until_spec reads known.reads other).1

theorem matches_possible {t : Team} (of : t.Of ev.sys) (sharing : Sharing) {states : Region} (known : ev.sys.StateSet states) :
    ev.Agree R (ev.possible sharing t states) ((ev.under constraints).possible sharing t states) := by
  have fairStates := matches_fair_states twins
  cases sharing with
  | distributed => exact matches_bind fairStates fun fair reads => matches_pure (twins.system.possible_spec of reads known).1
  | everyone =>
      unfold Evaluator.possible
      dsimp only
      split
      · exact matches_pure (.empty _)
      · exact matches_bind fairStates fun fair reads => matches_pure (twins.system.possible_for_some_spec of reads known).1
  | common =>
      unfold Evaluator.possible
      dsimp only
      split
      · exact matches_counted twins.linked rfl (twins.system.possible_by_chain_spec of (Region.reads_empty _) known).1
      · exact matches_bind fairStates fun fair reads =>
          matches_counted twins.linked rfl (twins.system.possible_by_chain_spec of reads known).1

theorem matches_possibly (sharing : Sharing) (names : List String) (first : ev.Agree R x x') :
    ev.Agree R (ev.possibly sharing names x) ((ev.under constraints).possibly sharing names x') := by
  unfold Evaluator.possibly
  rw [show (ev.under constraints).sys.teamOf names = _ from ev.sys.team_of_under constraints names]
  refine matches_bind (matches_of_except (ev.sys.team_of_spec names)) fun t known => ?_
  exact matches_bind first fun states inside => matches_possible twins known.1 sharing inside

end

-- A task that the evaluation of a strategic operator may come to, where the values of formulas are known.
structure Sets (ev : Evaluator) (values : Formula → Region → Prop) (task : Task) : Prop where
  aims : ∃ aim, task.formula.aim? = some aim ∧ task.ability = aim.ability ∧ task.goal.kind = aim.kind ∧
    ev.sys.teamOf aim.names = .ok task.team ∧ values aim.left task.goal.left ∧ values aim.right task.goal.right
  left : ev.sys.StateSet task.goal.left
  right : ev.sys.StateSet task.goal.right

def DecidesAlike (ev : Evaluator) (constraints : List Region) (R : Memory → Memory → Prop) (values : Formula → Region → Prop)
    (f : Formula) : Prop :=
  ∀ task : Task, task.formula = f → ev.Sets values task → ev.Agree R (ev.decide task) ((ev.under constraints).decide task)

def Valued (ev : Evaluator) (constraints : List Region) (R : Memory → Memory → Prop) (values : Formula → Region → Prop) : Prop :=
  ∀ f P, Matches R P (ev.everywhere f) ((ev.under constraints).everywhere f) →
    Matches R (fun r => P r ∧ values f r) (ev.everywhere f) ((ev.under constraints).everywhere f)

section

variable {values : Formula → Region → Prop} (valued : ev.Valued constraints R values)

include valued

theorem matches_aim {f : Formula} {aim : Aim} (aims : f.aim? = some aim) (direct : ev.usesDual aim.ability = false)
    (decides : ev.DecidesAlike constraints R values f)
    (first : ev.Agree R (ev.everywhere aim.left) ((ev.under constraints).everywhere aim.left))
    (second : ev.Agree R (ev.everywhere aim.right) ((ev.under constraints).everywhere aim.right)) :
    ev.Agree R (ev.everywhere f) ((ev.under constraints).everywhere f) := by
  rw [everywhere_aim aims direct, @everywhere_aim (ev.under constraints) f aim aims direct]
  rw [show (ev.under constraints).sys.teamOf aim.names = _ from ev.sys.team_of_under constraints aim.names]
  refine matches_bind (P := fun t => ev.sys.teamOf aim.names = .ok t) (matches_of_except fun _ found => found) fun t found => ?_
  refine matches_bind (valued _ _ first) fun left known => matches_bind (valued _ _ second) fun right other => ?_
  exact decides ⟨f, aim.ability, t, ⟨aim.kind, left, right⟩⟩ rfl ⟨⟨aim, aims, rfl, rfl, found, known.2, other.2⟩, known.1, other.1⟩

abbrev EvaluatesAlike (ev : Evaluator) (constraints : List Region) (R : Memory → Memory → Prop) (values : Formula → Region → Prop)
    (f : Formula) : Prop :=
  (∀ g ∈ f.decided ev.usesDual, ev.DecidesAlike constraints R values g) →
    ev.Agree R (ev.everywhere f) ((ev.under constraints).everywhere f)

theorem alike_built (twins : ev.sys.Twins constraints R) :
    Formula.Built ev.usesDual (ev.EvaluatesAlike constraints R values) (ev.EvaluatesAlike constraints R values) where
  forces := rfl
  whole := fun g p each => by
    rw [← everywhere_spelled g, ← @everywhere_spelled (ev.under constraints) g]
    exact p fun h decides => each h (g.decided_spelled rfl decides)
  constant := fun value _ => matches_pure (constant_state_set twins.system value)
  atom := fun text _ => matches_of_except (twins.system.atom_spec text)
  not := fun _ p each => matches_negate (p each)
  and := fun _ _ p q each => matches_both (p (List.forall_mem_append.mp each).1) (q (List.forall_mem_append.mp each).2)
  or := fun _ _ p q each => matches_either (p (List.forall_mem_append.mp each).1) (q (List.forall_mem_append.mp each).2)
  iff := fun _ _ p q each => matches_equally (p (List.forall_mem_append.mp each).1) (q (List.forall_mem_append.mp each).2)
  next := fun _ p each => matches_some_next twins (p each)
  always := fun _ p each => matches_some_always twins (p each)
  strong := fun _ _ p q each =>
    matches_some_until twins (p (List.forall_mem_append.mp each).1) (q (List.forall_mem_append.mp each).2)
  agent := fun name _ p each => matches_possibly twins .distributed [name] (p each)
  group := fun sharing names _ p each => matches_possibly twins sharing names (p each)
  aims := fun g aim aims direct p q each => by
    obtain ⟨own, left, right⟩ := Formula.decided_aim aims direct
    exact matches_aim valued aims direct (each g own) (p fun h decides => each h (left decides)) (q fun h decides => each h (right decides))

theorem matches_everywhere (twins : ev.sys.Twins constraints R) (f : Formula)
    (decides : ∀ g ∈ f.decided ev.usesDual, ev.DecidesAlike constraints R values g) :
    ev.Agree R (ev.everywhere f) ((ev.under constraints).everywhere f) :=
  (alike_built valued twins).all f decides

end

end Evaluator

end Coalition
