import Coalition.Evaluation.OnStates
import Coalition.Proofs.Evaluation.Derived
import Coalition.Proofs.Evaluation.Run
import Coalition.Proofs.Evaluation.Temporal

-- When one decides what another decides, it gives the same answer for whole formulas: every operator passes on what its operands give.

set_option autoImplicit false

namespace Coalition

namespace Eval

variable {α β : Type} {R : Memory → Memory → Prop} {P : α → Prop} {Q : β → Prop} {x y : Eval α} {f g : α → Eval β}

-- What the first computation gives, the second gives as well, from related memories into related memories.
def Refines (R : Memory → Memory → Prop) (P : α → Prop) (x y : Eval α) : Prop :=
  ∀ m n a k, R m n → x.run m = (.ok a, k) → P a ∧ ∃ l, y.run n = (.ok a, l) ∧ R k l

theorem refines_pure {a : α} (holds : P a) : Refines R P (pure a) (pure a) := by
  intro m n b k related ran
  cases ran
  exact ⟨holds, n, rfl, related⟩

theorem ok_of_run {m k : Memory} {b : β} (ran : (x >>= f).run m = (.ok b, k)) :
    ∃ a l, x.run m = (.ok a, l) ∧ (f a).run l = (.ok b, k) := by
  cases first : x.run m with
  | mk result l =>
      cases result with
      | error e =>
          rw [run_bind_error first] at ran
          cases ran
      | ok a => exact ⟨a, l, rfl, (run_bind first).symm.trans ran⟩

theorem refines_bind (first : Refines R P x y) (next : ∀ a, P a → Refines R Q (f a) (g a)) : Refines R Q (x >>= f) (y >>= g) := by
  intro m n b k related ran
  obtain ⟨a, l, here, later⟩ := ok_of_run ran
  obtain ⟨holds, l', there, still⟩ := first m n a l related here
  obtain ⟨done, k', ended, kept⟩ := next a holds l l' b k still later
  exact ⟨done, k', (run_bind there).trans ended, kept⟩

theorem refines_throw (e : Error) : Refines R P (throw e) y := fun _ _ _ _ _ ran => by cases ran

theorem refines_of_except {z : Except Error α} (yields : Yields z P) : Refines R P (ofExcept z) (ofExcept z) := by
  cases z with
  | ok a => exact refines_pure (yields a rfl)
  | error e => exact refines_throw e

theorem refines_map_m {γ : Type} {f g : γ → Eval α} {cs : List γ} (each : ∀ c ∈ cs, Refines R P (f c) (g c)) :
    Refines R (fun as => ∀ a ∈ as, P a) (cs.mapM f) (cs.mapM g) := by
  induction cs with
  | nil => exact refines_pure (List.forall_mem_nil P)
  | cons c rest ih =>
      rw [List.mapM_cons, List.mapM_cons]
      refine refines_bind (each c List.mem_cons_self) fun a holds => refines_bind (ih ?_) fun as all => ?_
      · exact fun d listed => each d (List.mem_cons_of_mem _ listed)
      · exact refines_pure (List.forall_mem_cons.mpr ⟨holds, all⟩)

end Eval

structure System.Linked (sys : System) (R : Memory → Memory → Prop) : Prop where
  counts : ∀ m n c d, R m n → R { m with counters := c } { n with counters := d }
  fair : ∀ m n c d, R m n → R { m with counters := c, fair := some sys.fairStates.value }
    { n with counters := d, fair := some sys.fairStates.value }
  left : ∀ m n, R m n → ∀ fair ∈ m.fair, fair = sys.fairStates.value
  right : ∀ m n, R m n → ∀ fair ∈ n.fair, fair = sys.fairStates.value

theorem System.WellFormed.atom_spec {sys : System} (wf : sys.WellFormed) (text : String) : Yields (sys.atom text) sys.StateSet := by
  have compiled : Yields (System.compile sys.names sys.defines .state text) fun region => region.Reads sys.stateBit := by
    refine reads_compile text ?_ wf.defines
    rw [wf.vars]
    exact Frame.state_scope_bits wf.laid
  refine yields_bind compiled fun region reads => ?_
  exact yields_ok ⟨Region.inter_subset_right _ _, reads.inter sys.reads_states_mask⟩

namespace Eval

theorem counted_run (c : Counted Region) (m : Memory) : ∃ d, (counted c).run m = (.ok c.value, { m with counters := d }) := by
  unfold counted
  split
  · exact ⟨_, rfl⟩
  · exact ⟨m.counters, rfl⟩

theorem deciding_run {α : Type} {x : Eval α} {m k : Memory} {result : Except Error α} (ran : x.run m = (result, k)) :
    (deciding x).run m = (result, { k with counters := (k.counters.add .strategicEvaluations 1).add .strategicTime 0 }) := by
  have counts : (deciding x).run m =
      ((x.run m).1, { (x.run m).2 with counters := ((x.run m).2.counters.add .strategicEvaluations 1).add .strategicTime 0 }) := rfl
  rw [counts, ran]

section

variable {sys : System} {R : Memory → Memory → Prop} (linked : sys.Linked R)

include linked

theorem refines_counted {P : Region → Prop} {c : Counted Region} (holds : P c.value) : Refines R P (counted c) (counted c) := by
  intro m n a k related ran
  obtain ⟨d, here⟩ := counted_run c m
  obtain ⟨e, there⟩ := counted_run c n
  rw [here] at ran
  cases ran
  exact ⟨holds, _, there, linked.counts m n d e related⟩

theorem refines_deciding {α : Type} {P : α → Prop} {x y : Eval α} (refines : Refines R P x y) :
    Refines R P (deciding x) (deciding y) := by
  intro m n a k related ran
  cases here : x.run m with
  | mk result before =>
      rw [deciding_run here] at ran
      cases ran
      obtain ⟨holds, l, there, still⟩ := refines m n a before related here
      exact ⟨holds, _, deciding_run there, linked.counts _ _ _ _ still⟩

end

theorem fair_states_run (ev : Evaluator) {m : Memory} (known : ∀ fair ∈ m.fair, fair = ev.sys.fairStates.value) :
    ∃ c, (ev.fairStates).run m = (.ok ev.sys.fairStates.value, { m with counters := c, fair := some ev.sys.fairStates.value }) := by
  obtain ⟨recalled, counters, fair, permits, forces, encodings, answers⟩ := m
  cases fair with
  | some fair =>
      cases known fair rfl
      exact ⟨counters, rfl⟩
  | none =>
      obtain ⟨d, ran⟩ := counted_run ev.sys.fairStates ⟨recalled, counters, none, permits, forces, encodings, answers⟩
      exact ⟨d, run_bind (f := fun fair => do
        modify fun m : Memory => { m with fair := some fair }
        return fair) ran⟩

theorem refines_fair_states {sys : System} (wf : sys.WellFormed) {R : Memory → Memory → Prop} (linked : sys.Linked R)
    (o u : Options) (c d : Bool) :
    Refines R (fun r => r.Reads sys.stateBit) (Evaluator.fairStates ⟨sys, o, c⟩) (Evaluator.fairStates ⟨sys, u, d⟩) := by
  intro m n a k related ran
  obtain ⟨counted, left⟩ := fair_states_run ⟨sys, o, c⟩ (linked.left m n related)
  obtain ⟨counted', right⟩ := fair_states_run ⟨sys, u, d⟩ (linked.right m n related)
  rw [left] at ran
  cases ran
  exact ⟨(wf.some_always_spec (.mask _)).1.reads, _, right, linked.fair m n counted counted' related⟩

end Eval

namespace Evaluator

open Eval

variable {sys : System} {o u : Options} {c d : Bool} {R : Memory → Memory → Prop} {x y x' y' : Eval Region}

theorem constant_state_set {ev : Evaluator} (wf : ev.sys.WellFormed) (value : Constant) : ev.sys.StateSet (ev.constant value) := by
  cases value with
  | true => exact .mask _
  | false => exact .empty _
  | init => exact wf.init
  | reachable => exact wf.reachable_state_set

abbrev Alike (sys : System) (R : Memory → Memory → Prop) (x y : Eval Region) : Prop := Refines R sys.StateSet x y

section

variable (wf : sys.WellFormed) (linked : sys.Linked R) (first : Alike sys R x x') (second : Alike sys R y y')

theorem refines_negate (first : Alike sys R x x') :
    Alike sys R (Evaluator.negate ⟨sys, o, c⟩ x) (Evaluator.negate ⟨sys, u, d⟩ x') :=
  refines_bind first fun _ known => refines_pure (.outside known.reads)

theorem refines_both (first : Alike sys R x x') (second : Alike sys R y y') : Alike sys R (both x y) (both x' y') :=
  refines_bind first fun _ known => refines_bind second fun _ other => refines_pure (known.inter other.reads)

theorem refines_either (first : Alike sys R x x') (second : Alike sys R y y') : Alike sys R (either x y) (either x' y') :=
  refines_bind first fun _ known => refines_bind second fun _ other => refines_pure (known.union other)

theorem refines_equally (first : Alike sys R x x') (second : Alike sys R y y') :
    Alike sys R (Evaluator.equally ⟨sys, o, c⟩ x y) (Evaluator.equally ⟨sys, u, d⟩ x' y') :=
  refines_bind first fun _ known => refines_bind second fun _ other =>
    refines_pure ((Frame.StateSet.mask _).within (known.reads.iff other.reads))

include wf linked

theorem refines_some_next (first : Alike sys R x x') :
    Alike sys R (Evaluator.someNext ⟨sys, o, c⟩ x) (Evaluator.someNext ⟨sys, u, d⟩ x') := by
  refine refines_bind first fun _ known => refines_bind (refines_fair_states wf linked o u c d) fun fair reads => ?_
  exact refines_pure (wf.some_next_spec reads known).1

theorem refines_some_always (first : Alike sys R x x') :
    Alike sys R (Evaluator.someAlways ⟨sys, o, c⟩ x) (Evaluator.someAlways ⟨sys, u, d⟩ x') :=
  refines_bind first fun _ known => refines_counted linked (wf.some_always_spec known).1

theorem refines_some_until (first : Alike sys R x x') (second : Alike sys R y y') :
    Alike sys R (Evaluator.someUntil ⟨sys, o, c⟩ x y) (Evaluator.someUntil ⟨sys, u, d⟩ x' y') := by
  refine refines_bind first fun _ known => refines_bind second fun _ other => ?_
  refine refines_bind (refines_fair_states wf linked o u c d) fun fair reads => ?_
  exact refines_counted linked (wf.some_until_spec reads known.reads other).1

theorem refines_possible {t : Team} (of : t.Of sys) (sharing : Sharing) {states : Region} (known : sys.StateSet states) :
    Alike sys R (Evaluator.possible ⟨sys, o, c⟩ sharing t states) (Evaluator.possible ⟨sys, u, d⟩ sharing t states) := by
  have fairStates := refines_fair_states wf linked o u c d
  cases sharing with
  | distributed =>
      refine refines_bind fairStates fun fair reads => refines_pure ?_
      exact (wf.possible_spec of reads known).1
  | everyone =>
      unfold Evaluator.possible
      dsimp only
      split
      · exact refines_pure (.empty _)
      · refine refines_bind fairStates fun fair reads => refines_pure ?_
        exact (wf.possible_for_some_spec of reads known).1
  | common =>
      unfold Evaluator.possible
      dsimp only
      split
      · exact refines_counted linked (wf.possible_by_chain_spec of (Region.reads_empty _) known).1
      · refine refines_bind fairStates fun fair reads => ?_
        exact refines_counted linked (wf.possible_by_chain_spec of reads known).1

theorem refines_possibly (sharing : Sharing) (names : List String) (first : Alike sys R x x') :
    Alike sys R (Evaluator.possibly ⟨sys, o, c⟩ sharing names x) (Evaluator.possibly ⟨sys, u, d⟩ sharing names x') := by
  refine refines_bind (refines_of_except (sys.team_of_spec names)) fun t known => ?_
  exact refines_bind first fun _ states => refines_possible wf linked known.1 sharing states

end

def DecideAlike (sys : System) (R : Memory → Memory → Prop) (o u : Options) (c d : Bool) (names : List String) : Prop :=
  ∀ t, t.Of sys → sys.team t.names = .ok t → sys.teamOf names = .ok t → ∀ formula ability goal,
    sys.StateSet goal.left → sys.StateSet goal.right →
      Alike sys R (Evaluator.decide ⟨sys, o, c⟩ ⟨formula, ability, t, goal⟩) (Evaluator.decide ⟨sys, u, d⟩ ⟨formula, ability, t, goal⟩)

theorem refines_aim {f : Formula} {aim : Aim} (aims : f.aim? = some aim) (direct : Evaluator.usesDual ⟨sys, o, c⟩ aim.ability = false)
    (directToo : Evaluator.usesDual ⟨sys, u, d⟩ aim.ability = false) (decides : DecideAlike sys R o u c d aim.names)
    (first : Alike sys R (Evaluator.everywhere ⟨sys, o, c⟩ aim.left) (Evaluator.everywhere ⟨sys, u, d⟩ aim.left))
    (second : Alike sys R (Evaluator.everywhere ⟨sys, o, c⟩ aim.right) (Evaluator.everywhere ⟨sys, u, d⟩ aim.right)) :
    Alike sys R (Evaluator.everywhere ⟨sys, o, c⟩ f) (Evaluator.everywhere ⟨sys, u, d⟩ f) := by
  rw [everywhere_aim aims direct, everywhere_aim aims directToo]
  refine refines_bind (P := fun t => sys.teamOf aim.names = .ok t) (refines_of_except fun _ found => found) fun t found => ?_
  refine refines_bind first fun left known => refines_bind second fun right other => ?_
  obtain ⟨of, named⟩ := sys.team_of_spec aim.names t found
  exact decides t of named found f aim.ability ⟨aim.kind, left, right⟩ known other

abbrev EvaluatesTo (sys : System) (R : Memory → Memory → Prop) (o u : Options) (c d : Bool) (f : Formula) : Prop :=
  f.Every (fun _ => True) (fun _ => True) (DecideAlike sys R o u c d) →
    Alike sys R (Evaluator.everywhere ⟨sys, o, c⟩ f) (Evaluator.everywhere ⟨sys, u, d⟩ f)

theorem evaluates_built (wf : sys.WellFormed) (linked : sys.Linked R) (sees : o.observability = u.observability) :
    Formula.Built (Evaluator.usesDual ⟨sys, o, c⟩) (EvaluatesTo sys R o u c d) (EvaluatesTo sys R o u c d) := by
  have dual : Evaluator.usesDual ⟨sys, u, d⟩ = Evaluator.usesDual ⟨sys, o, c⟩ := by
    funext ability
    simp only [usesDual, sees]
  exact {
    forces := rfl
    whole := fun g p each => by
      rw [← everywhere_spelled g, ← @everywhere_spelled ⟨sys, u, d⟩ g, dual]
      exact p (g.every_spelled.mpr each)
    constant := fun value _ => refines_pure (@constant_state_set ⟨sys, o, c⟩ wf value)
    atom := fun text _ => refines_of_except (wf.atom_spec text)
    not := fun _ p each => refines_negate (p each)
    and := fun _ _ p q each => refines_both (p each.1) (q each.2)
    or := fun _ _ p q each => refines_either (p each.1) (q each.2)
    iff := fun _ _ p q each => refines_equally (p each.1) (q each.2)
    next := fun _ p each => refines_some_next wf linked (p each)
    always := fun _ p each => refines_some_always wf linked (p each)
    strong := fun _ _ p q each => refines_some_until wf linked (p each.1) (q each.2)
    agent := fun name _ p each => refines_possibly wf linked .distributed [name] (p each.2)
    group := fun sharing names _ p each => refines_possibly wf linked sharing names (p each.2)
    aims := fun g aim aims direct p q each => by
      obtain ⟨own, left, right⟩ := (Formula.every_aim aims).mp each
      exact refines_aim aims direct (dual ▸ direct) own (p left) (q right) }

-- Evaluators that decide the coalitions of a formula alike give the same answer for it.
theorem refines_everywhere (wf : sys.WellFormed) (linked : sys.Linked R) (sees : o.observability = u.observability) (f : Formula)
    (decides : ∀ names ∈ f.coalitions, DecideAlike sys R o u c d names) :
    Alike sys R (Evaluator.everywhere ⟨sys, o, c⟩ f) (Evaluator.everywhere ⟨sys, u, d⟩ f) :=
  (evaluates_built wf linked sees).all f (f.every_coalition.mpr decides)

end Evaluator

end Coalition
