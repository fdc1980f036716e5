import Coalition.Proofs.Evaluation.Refine
import Coalition.Proofs.Evaluation.Strategies

-- The three ways to enumerate strategies agree: on what a team can win, and so on every formula.

set_option autoImplicit false

namespace Coalition

def Variant.Enumerates (v : Variant) : Prop := v = .splitFilter ∨ v = .filterSplit ∨ v = .filterSplitFilter

theorem Eval.Ends.run {α : Type} {x : Eval α} {m k : Memory} {a : α} {post : α → Memory → Prop} (ends : Eval.Ends x m post)
    (ran : x.run m = (.ok a, k)) : post a k := by
  obtain ⟨b, l, known, holds⟩ := ends
  rw [known] at ran
  cases ran
  exact holds

namespace Evaluator

def choosing (ev : Evaluator) (v : Variant) : Evaluator := { ev with options := { ev.options with variant := v } }

def Paired (sys : System) (m n : Memory) : Prop := m.Alike n ∧ m.Sound sys

theorem paired_linked (sys : System) : sys.Linked (Paired sys) where
  counts m n c d paired := ⟨paired.1, paired.2.protocols, paired.2.fair⟩
  fair m n c d paired := by
    have same := congrArg (fun k : Memory => { k with fair := some sys.fairStates.value }) paired.1
    exact ⟨same, paired.2.protocols, by simp⟩
  left _ _ paired := paired.2.fair
  right _ _ paired := (paired.2.alike paired.1).fair

variable (ev : Evaluator) {t : Team} {goal : Goal} {x y : Eval Region} {m n : Memory}

theorem decide_enumerates (limited : ev.options.observability = .limited) (enumerates : ev.options.variant.Enumerates)
    (known : ev.sys.team t.names = .ok t) (posed : ev.Posed t (m.protocolFor ev.sys t) goal) (formula : Formula) (ability : Ability) :
    Eval.Ends (ev.decide ⟨formula, ability, t, goal⟩) m fun r n =>
      ev.Wins t (m.protocolFor ev.sys t) goal (m.protocolFor ev.sys t).members r ∧ (m.learned ev.sys t).Alike n := by
  have solved : ∃ x, ev.decide ⟨formula, ability, t, goal⟩ = Eval.deciding x ∧ ev.Solves t goal x m := by
    unfold Evaluator.decide
    rw [if_neg (by simp [limited])]
    obtain variant | variant | variant := enumerates <;> rw [variant]
    · exact ⟨_, rfl, split_filter_solves known posed⟩
    · exact ⟨_, rfl, filter_split_solves known posed⟩
    · exact ⟨_, rfl, filter_split_filter_solves known posed⟩
  obtain ⟨x, same, r, n, ran, wins, alike⟩ := solved
  rw [same]
  exact ⟨r, _, Eval.deciding_run ran, wins, alike⟩

theorem decide_alike (wf : ev.sys.WellFormed) (limited : ev.options.observability = .limited) {v w : Variant} (first : v.Enumerates)
    (second : w.Enumerates) (names : List String) :
    DecideAlike ev.sys (Paired ev.sys) (ev.choosing v).options (ev.choosing w).options ev.cancelled ev.cancelled names := by
  intro t of known _ formula ability goal left right m n r k paired ran
  have posed : ev.Posed t (m.protocolFor ev.sys t) goal := posed_protocol wf of paired.2 left right
  have same := paired.1.protocol_for ev.sys t
  obtain ⟨wins, alike⟩ := (decide_enumerates (ev.choosing v) limited first known ⟨wf, of, posed.played, left, right⟩
    formula ability).run ran
  obtain ⟨s, l, there, winsToo, alikeToo⟩ := decide_enumerates (ev.choosing w) limited second known
    (m := n) ⟨wf, of, same.symm ▸ posed.played, left, right⟩ formula ability
  change ev.Wins t (n.protocolFor ev.sys t) goal (n.protocolFor ev.sys t).members s at winsToo
  rw [same] at winsToo
  obtain rfl : r = s := wins.unique winsToo
  refine ⟨wins.state_set ⟨wf, of, posed.played, left, right⟩, l, there, ?_, (paired.2.learned of).alike alike⟩
  exact alike.symm.trans ((paired.1.learned ev.sys t).trans alikeToo)

theorem satisfying_alike (wf : ev.sys.WellFormed) (limited : ev.options.observability = .limited) {v w : Variant} (first : v.Enumerates)
    (second : w.Enumerates) (f : Formula) :
    Alike ev.sys (Paired ev.sys) ((ev.choosing v).satisfying f) ((ev.choosing w).satisfying f) := by
  have all : ∀ {u : Variant}, u.Enumerates → (ev.choosing u).satisfying f = (ev.choosing u).onAll f := by
    intro u enumerates
    unfold satisfying
    refine if_neg fun onRequest => ?_
    obtain rfl | rfl | rfl := enumerates <;> cases onRequest
  rw [all first, all second]
  unfold onAll
  cases stopped : ev.cancelled with
  | true =>
      simp only [choosing, stopped, if_true]
      exact Eval.refines_throw .canceled
  | false =>
      have refines := refines_everywhere wf (paired_linked ev.sys) (o := (ev.choosing v).options) (u := (ev.choosing w).options) rfl f
        fun names _ => decide_alike ev wf limited first second names
      simp only [choosing, stopped] at refines ⊢
      exact refines

/-- The three ways to enumerate strategies win the same states, and give the same answers on any list of formulas, when they start
from what earlier evaluations may have left. -/
theorem enumerations_agree {d : Description} {ev : Evaluator} (built : d.build = .ok ev.sys) {m : Memory} (sound : m.Sound ev.sys) :
    (∀ names t, ev.sys.team names = .ok t → ∀ goal, ev.sys.StateSet goal.left → ev.sys.StateSet goal.right → ∃ r a b c,
      (ev.splitFilter t goal).run m = (.ok r, a) ∧ (ev.filterSplit t goal).run m = (.ok r, b) ∧
        (ev.filterSplitFilter t goal).run m = (.ok r, c)) ∧
    (ev.options.observability = .limited → ∀ v w, v.Enumerates → w.Enumerates → ∀ fs : List Formula, ∀ regions k,
      (fs.mapM (ev.choosing v).satisfying).run m = (.ok regions, k) →
        ∃ l, (fs.mapM (ev.choosing w).satisfying).run m = (.ok regions, l) ∧ k.Alike l ∧ k.Sound ev.sys) := by
  have wf := d.build_well_formed _ built
  constructor
  · intro names t coalition goal left right
    obtain ⟨of, same⟩ := System.team_spec coalition
    have known := same.symm ▸ coalition
    have posed := posed_protocol wf of sound left right
    obtain ⟨r, a, ranA, winsA, _⟩ := split_filter_solves known posed
    obtain ⟨s, b, ranB, winsB, _⟩ := filter_split_solves known posed
    obtain ⟨u, c, ranC, winsC, _⟩ := filter_split_filter_solves known posed
    obtain rfl : r = s := winsA.unique winsB
    obtain rfl : r = u := winsA.unique winsC
    exact ⟨r, a, b, c, ranA, ranB, ranC⟩
  · intro limited v w first second fs regions k ran
    have refines := @Eval.refines_map_m _ _ _ _ _ _ fs fun f _ => satisfying_alike ev wf limited first second f
    obtain ⟨_, l, there, paired⟩ := refines m m regions k ⟨.refl m, sound⟩ ran
    exact ⟨l, there, paired⟩

theorem enumerations_agree_lamp : ∃ (ev : Evaluator) (t : Team), lamp.build = .ok ev.sys ∧ ({} : Memory).Sound ev.sys ∧
    ev.sys.team ["hand"] = .ok t ∧ ev.options.observability = .limited ∧ (∃ r a b c,
      (ev.splitFilter t ⟨.weak, ev.sys.init, .empty⟩).run {} = (.ok r, a) ∧
      (ev.filterSplit t ⟨.weak, ev.sys.init, .empty⟩).run {} = (.ok r, b) ∧
      (ev.filterSplitFilter t ⟨.weak, ev.sys.init, .empty⟩).run {} = (.ok r, c)) ∧
    ∀ fs : List Formula, ∀ regions k, (fs.mapM (ev.choosing .splitFilter).satisfying).run {} = (.ok regions, k) →
      ∃ l, (fs.mapM (ev.choosing .filterSplit).satisfying).run {} = (.ok regions, l) ∧ k.Alike l ∧ k.Sound ev.sys := by
  obtain ⟨sys, t, built, coalition⟩ := lamp_builds
  have sound := Memory.empty_sound sys
  have agree := @enumerations_agree lamp ⟨sys, {}, false⟩ built {} sound
  refine ⟨⟨sys, {}, false⟩, t, built, sound, coalition, rfl, ?_, ?_⟩
  · exact agree.1 ["hand"] t coalition _ (lamp.build_well_formed sys built).init (.empty _)
  · exact agree.2 rfl .splitFilter .filterSplit (.inl rfl) (.inr (.inl rfl))

end Evaluator

end Coalition
