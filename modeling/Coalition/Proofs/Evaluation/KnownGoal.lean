import Coalition.Proofs.Evaluation.Caching
import Coalition.Proofs.Evaluation.Guards
import Coalition.Proofs.Model.Constrained

-- What it takes to achieve a goal that is known to be reached.

set_option autoImplicit false

namespace Coalition

open Eval

theorem Arena.reached_counts {α : Type} {a : Arena α} {left right bad : Set α} {m : α} (free : a.constraints = []) (here : m ∈ right)
    (top : m ∈ a.top) : m ∈ a.counting bad .strong left right := by
  show m ∈ a.strongCounting _ _ _
  rw [Arena.strongCounting, if_pos (by simp [free]), ← OrderHom.map_lfp]
  exact .inl ⟨here, top⟩

namespace System

-- A step goes on from some reachable state of the set.
def GoesOn (sys : System) (X : Set Valuation) : Prop := ∃ s u, sys.Reachable s ∧ s ∈ X ∧ sys.Step s u

theorem WellFormed.goes_on_of_won {sys : System} (wf : sys.WellFormed) {t : Team} (of : t.Of sys) {goal : Goal} (free : sys.fairness = [])
    (right : sys.StateSet goal.right) (kind : goal.kind = .strong) :
    (sys.won t (sys.protocolOf t) goal (sys.protocolOf t).members).Nonempty ↔ sys.GoesOn goal.right.members := by
  constructor
  · rintro ⟨ρ, won⟩
    by_contra ends
    -- nothing is won then: a move of the goal goes on, and no move forces nothing
    have goes : ∀ μ ∈ (sys.protocolOf t).members, ∃ τ ∈ sys.trans.members, sys.Reachable (sys.stateOf τ) ∧
        sys.stateOf τ = sys.stateOf μ ∧ t.Plays τ μ := fun μ member => ((wf.mem_protocol of).mp member).2
    have none : ((sys.arena t (sys.protocolOf t)).on (sys.protocolOf t).members).constraints = [] := List.map_eq_nil_iff.mpr free
    rw [System.won, kind] at won
    suffices nothing : ((sys.arena t (sys.protocolOf t)).on (sys.protocolOf t).members).wins .strong goal.left.members
        goal.right.members ⊆ ∅ from nothing won
    refine Arena.strong_le_free _ (by simp [none]) ?_
    rintro μ (⟨inside, top⟩ | ⟨_, member, _, forced⟩)
    · obtain ⟨τ, trans, reached, state, _⟩ := goes μ top.1
      exact ends ⟨_, _, reached, (Frame.mem_state_of right.reads).mpr ((Frame.mem_of_state right.reads state).mpr inside),
        τ, trans, rfl, rfl⟩
    · obtain ⟨τ, trans, _, state, plays⟩ := goes μ member
      obtain ⟨_, impossible, _⟩ := forced τ trans state plays
      exact impossible
  · rintro ⟨_, _, reached, inside, τ, trans, rfl, _⟩
    have member := Set.singleton_subset_iff.mpr (wf.protocol_of_trans of trans reached)
    exact ⟨τ, reached_won free kind member member (Set.singleton_subset_iff.mpr ((Frame.mem_state_of right.reads).mp inside)) rfl⟩

end System

theorem Encoding.finds_known {sys : System} (wf : sys.WellFormed) {t : Team} (of : t.Of sys) {goal : Goal} (free : sys.fairness = [])
    (left : sys.StateSet goal.left) (right : sys.StateSet goal.right) (kind : goal.kind = .strong) {moves : Region}
    (played : sys.PlayedSet moves) : Yields (ofMoves sys t (sys.equivalenceOf t) moves) fun e =>
      ∀ s, sys.Reachable s → sys.Knows t goal.right.members s → s ∈ (e.winning goal e.unfair.value).value.members := by
  intro e made s reached knows
  obtain ⟨vars, rules, extra, prescribes, _, rfl⟩ := of_moves_spec wf of _ played e made
  obtain ⟨κ, coded⟩ := prescribes.coded
  rw [mem_winning wf of extra played prescribes left right, wf.reachable_state reached]
  have none : (sys.arenaPlaying vars rules κ moves.members).constraints = [] := List.map_eq_nil_iff.mpr free
  refine ⟨reached, κ, coded, fun u reachedU same => ?_⟩
  rw [kind]
  exact Arena.reached_counts none (knows u reachedU same) reachedU

namespace Evaluator

variable {ev : Evaluator} {t : Team} {names : List String} {g p q : Formula}

-- A task is not encoded: the reserve is short, or a list of actions has no room.
def Refuses (ev : Evaluator) (task : Task) (e : Error) : Prop :=
  e.ShortReserve ∨ e = .space .noRoom ∧ ¬ Encoding.Fits ev.sys task.team (ev.encodedMoves task)

-- What it takes to achieve a goal that is known to be reached.
def Attains (ev : Evaluator) (t : Team) (X : Set Valuation) (s : Valuation) : Prop :=
  ev.options.observability = .full ∨ match ev.options.variant with
    | .symbolic => True
    | .symbolicFiltered => ev.sys.GoesOn X
    | _ => ev.sys.Concerted t s

theorem attains_listed (codes : ¬ ev.UsesCodes) (X : Set Valuation) (s : Valuation) :
    ev.Attains t X s ↔ ev.options.observability = .full ∨ ev.sys.Concerted t s := by
  unfold Attains
  cases sees : ev.options.observability with
  | full => simp
  | limited =>
      have variant : ¬ (ev.options.variant = .symbolic ∨ ev.options.variant = .symbolicFiltered) := fun variant => codes ⟨sees, variant⟩
      cases chosen : ev.options.variant <;> simp_all

section

variable (wf : ev.sys.WellFormed) (free : ev.sys.fairness = []) (group : ev.options.observability = .limited → ev.options.semantics = .group)
  {P Q : Region} (left : ev.sys.StateSet P) (right : ev.sys.StateSet Q) {s : Valuation}

include wf free left right

section

include group

theorem solution_known (named : ev.sys.team t.names = .ok t) (reached : ev.sys.Reachable s) (knows : ev.sys.Knows t Q.members s) :
    s ∈ (ev.solution t .canForce ⟨.strong, P, Q⟩).members ↔ ev.options.observability = .full ∨ ev.sys.Concerted t s := by
  have of := (System.team_spec named).1
  have spec := @solution_spec ev wf t named ⟨.strong, P, Q⟩ left right .canForce
  cases sees : ev.options.observability with
  | full =>
      have none : (ev.sys.stateArena t).constraints = [] := List.map_eq_nil_iff.mpr free
      rw [spec.2.1 sees]
      exact iff_of_true (Arena.reached_wins none (knows s reached (.refl t s)) (right.inside (knows s reached (.refl t s)))) (.inl rfl)
  | limited =>
      have wins := spec.2.2.1 sees s
      rw [group sees, wf.reachable_state reached] at wins
      rw [wins, @System.WellFormed.winnable_iff_concerted _ t ⟨.strong, P, Q⟩ _ wf of free right rfl reached knows]
      simp

end

-- Encoded strategies miss a goal that is known to be reached if no move wins it.
theorem encoded_known {formula : Formula} {ability : Ability} (codes : ev.UsesCodes) (of : t.Of ev.sys) :
    Outcome (ev.Refuses ⟨formula, ability, t, ⟨.strong, P, Q⟩⟩) (fun r => ∀ s, ev.sys.Reachable s → ev.sys.Knows t Q.members s →
      (s ∈ r.members ↔ ev.Attains t Q.members s)) (ev.encodedResult ⟨formula, ability, t, ⟨.strong, P, Q⟩⟩) := by
  let task : Task := ⟨formula, ability, t, ⟨.strong, P, Q⟩⟩
  change Outcome _ _ (ev.encodedResult task)
  have limited : ¬ ev.options.observability = .full := by simp [codes.1]
  have posed : ev.Posed t (ev.sys.protocolOf t) ⟨.strong, P, Q⟩ := ⟨wf, of, wf.protocol_played of, left, right⟩
  have whole : (ev.winners t ⟨.strong, P, Q⟩).members =
      ev.sys.won t (ev.sys.protocolOf t) ⟨.strong, P, Q⟩ (ev.sys.protocolOf t).members :=
    (filtered_spec posed (Set.Subset.refl _) posed.played.reads).2
  have some := @System.WellFormed.goes_on_of_won _ wf t of ⟨.strong, P, Q⟩ free right rfl
  rw [← whole] at some
  unfold encodedResult
  by_cases hopeless : ev.Hopeless task
  · -- no state of the goal goes on
    rw [if_pos hopeless]
    obtain ⟨filtered, none⟩ := hopeless
    have moves : ev.encodedMoves task = ev.winners t ⟨.strong, P, Q⟩ := if_pos filtered
    rw [moves] at none
    intro s _ _
    have ends : ¬ ev.sys.GoesOn Q.members := fun goes => by
      obtain ⟨ρ, member⟩ := some.mpr goes
      exact Set.notMem_empty ρ (Region.is_empty_members.mp none ▸ member)
    simp [Attains, limited, filtered, ends]
  · rw [if_neg hopeless]
    have played : ev.sys.PlayedSet (ev.encodedMoves task) := by
      unfold encodedMoves
      split
      · exact filtered_played posed (Set.Subset.refl _) posed.played.reads
      · exact posed.played
    cases made : Encoding.ofMoves ev.sys t (ev.sys.equivalenceOf t) (ev.encodedMoves task) with
    | error e => exact Encoding.of_moves_refused wf of played made
    | ok e =>
        intro s reached knows
        refine iff_of_true (@Encoding.finds_known _ wf t of ⟨.strong, P, Q⟩ free left right rfl _ played e made s reached knows) (.inr ?_)
        obtain plain | filtered := codes.2
        · rw [plain]
          trivial
        · rw [filtered]
          refine some.mp (Region.not_empty_members.mp (Bool.eq_false_iff.mpr fun none => hopeless ⟨filtered, ?_⟩))
          have moves : ev.encodedMoves task = ev.winners t ⟨.strong, P, Q⟩ := if_pos filtered
          rw [moves]
          exact none

include group

theorem decide_known {teams : Team → Prop} {tasks : Task → Prop} (keyed : ev.Keyed teams tasks) {formula : Formula}
    (listed : tasks ⟨formula, .canForce, t, ⟨.strong, P, Q⟩⟩) :
    Guards (·.Trusty ev teams tasks) (fun e => ev.UsesCodes ∧ ev.Refuses ⟨formula, .canForce, t, ⟨.strong, P, Q⟩⟩ e)
      (ev.decide ⟨formula, .canForce, t, ⟨.strong, P, Q⟩⟩)
      fun r => ∀ s, ev.sys.Reachable s → ev.sys.Knows t Q.members s → (s ∈ r.members ↔ ev.Attains t Q.members s) := by
  have named := keyed.named _ listed
  by_cases codes : ev.UsesCodes
  · refine Settles.mono (decide_coded keyed listed codes) fun result same => ?_
    have known := @encoded_known ev t wf free P Q left right formula .canForce codes (System.team_spec named).1
    rw [← same] at known
    cases result with
    | ok r => exact known
    | error e => exact ⟨codes, known⟩
  · refine guards_of_value (decide_solution wf keyed listed codes) fun s reached knows => ?_
    rw [attains_listed codes]
    exact solution_known wf free group left right named reached knows

end

section

variable (wf : ev.sys.WellFormed) {fs : List Formula} (keyed : ev.Keyed (ev.Teams fs) (ev.Arising fs))

include wf keyed

theorem everywhere_settles (inner : ∀ f ∈ g.decided ev.usesDual, ∃ h ∈ fs, f ∈ h.decided ev.usesDual) :
    Settles (·.Trusty ev (ev.Teams fs) (ev.Arising fs)) (· = ((ev.everywhere g).run {}).1) (ev.everywhere g) := by
  intro m trusty
  obtain ⟨result, k, l, ran, fresh, related, _⟩ := everywhere_repeats wf keyed inner m {} ⟨trusty, .empty ev _ _⟩
  exact ⟨result, k, ran, related.1, (congrArg Prod.fst fresh).symm⟩

theorem fresh_state_set (inner : ∀ f ∈ g.decided ev.usesDual, ∃ h ∈ fs, f ∈ h.decided ev.usesDual) {r : Region} (fresh : ev.Fresh g r) :
    ev.sys.StateSet r := by
  have empty := Memory.Trusty.empty ev (ev.Teams fs) (ev.Arising fs)
  obtain ⟨result, k, l, ran, _, _, holds⟩ := everywhere_repeats wf keyed inner {} {} ⟨empty, empty⟩
  exact (holds r ((congrArg Prod.fst ran).symm.trans fresh)).1

section

variable (free : ev.sys.fairness = []) (group : ev.options.observability = .limited → ev.options.semantics = .group) (listed : g ∈ fs)
  (aims : g.aim? = some ⟨.canForce, names, .strong, p, q⟩) (resolved : ev.sys.teamOf names = .ok t) {P Q : Region}

include free group listed aims resolved

theorem everywhere_known (first : ev.Fresh p P) (second : ev.Fresh q Q) :
    Guards (·.Trusty ev (ev.Teams fs) (ev.Arising fs)) (fun e => ev.UsesCodes ∧ ev.Refuses ⟨g, .canForce, t, ⟨.strong, P, Q⟩⟩ e)
      (ev.everywhere g) fun r =>
      ∀ s, ev.sys.Reachable s → ev.sys.Knows t Q.members s → (s ∈ r.members ↔ ev.Attains t Q.members s) := by
  have direct : ev.usesDual .canForce = false := rfl
  obtain ⟨own, inner, innerToo⟩ := Formula.decided_aim aims direct
  have ofP : ∀ f ∈ p.decided ev.usesDual, ∃ h ∈ fs, f ∈ h.decided ev.usesDual := fun f decides => ⟨g, listed, inner decides⟩
  have ofQ : ∀ f ∈ q.decided ev.usesDual, ∃ h ∈ fs, f ∈ h.decided ev.usesDual := fun f decides => ⟨g, listed, innerToo decides⟩
  have left := fresh_state_set wf keyed ofP first
  have right := fresh_state_set wf keyed ofQ second
  rw [everywhere_aim aims direct, resolved]
  refine settles_after (settles_pure rfl) (settles_after (first ▸ everywhere_settles wf keyed ofP) (settles_after
    (second ▸ everywhere_settles wf keyed ofQ) (decide_known wf free group left right keyed ⟨⟨g, listed, own⟩, ?_, left, right⟩)))
  exact ⟨_, aims, rfl, rfl, resolved, first, second⟩

theorem answers_known (other : ev.options.variant ≠ .onRequest) {earlier : List Formula} (before : earlier ⊆ fs)
    (first : ev.AnswersAll (earlier.map .all) p P) (second : ev.AnswersAll (earlier.map .all) q Q) :
    (∃ r, ev.AnswersAll (earlier.map .all) g r ∧ ∀ s, ev.sys.Reachable s → ev.sys.Knows t Q.members s →
      (s ∈ r.members ↔ ev.Attains t Q.members s)) ∨
    ev.UsesCodes ∧ ∃ e n, (ev.satisfying g).run (ev.after (earlier.map .all)) = (.error e, n) ∧
      ev.Refuses ⟨g, .canForce, t, ⟨.strong, P, Q⟩⟩ e := by
  have trusty := after_trusty wf other keyed before
  have whole := first.everywhere other
  obtain ⟨_, inner, innerToo⟩ := Formula.decided_aim aims (show ev.usesDual .canForce = false from rfl)
  have fresh : ∀ {f r}, (∀ x ∈ f.decided ev.usesDual, ∃ h ∈ fs, x ∈ h.decided ev.usesDual) → ev.AnswersAll (earlier.map .all) f r →
      ev.Fresh f r := by
    rintro f r inside ⟨n, ran⟩
    obtain ⟨result, _, again, _, same⟩ := everywhere_settles wf keyed inside _ trusty
    rw [whole, again] at ran
    exact same.symm.trans (congrArg Prod.fst ran)
  obtain ⟨result, n, ran, _, known⟩ := everywhere_known wf keyed free group listed aims resolved
    (fresh (fun x decides => ⟨g, listed, inner decides⟩) first) (fresh (fun x decides => ⟨g, listed, innerToo decides⟩) second) _ trusty
  rw [← whole g] at ran
  cases result with
  | ok r => exact .inl ⟨r, ⟨n, ran⟩, known⟩
  | error e => exact .inr ⟨known.1, e, n, ran, known.2⟩

end

end

theorem resolves_right (aims : g.aim? = some ⟨.canForce, names, .strong, p, q⟩) (resolves : g.Resolves ev.sys) : q.Resolves ev.sys :=
  ((Formula.every_aim aims).mp resolves).2.2

-- Requests for the states of a goal that is known to be reached need not be reliable, but those for its right operand.
theorem among_known (wf : ev.sys.WellFormed) (free : ev.sys.fairness = []) {earlier : List Question}
    (reliable : ev.Reliable (.all g :: earlier) q) (resolves : g.Resolves ev.sys)
    (aims : g.aim? = some ⟨.canForce, names, .strong, p, q⟩) (resolved : ev.sys.teamOf names = .ok t) {request : Region}
    (known : ev.sys.StateSet request) : ∃ r, ev.AnswersAmong earlier g request r ∧ ∀ s ∈ request.members, ev.sys.Reachable s →
      ev.sys.Knows t (ev.truth q).members s → (s ∈ r.members ↔ ev.Attains t (ev.truth q).members s) := by
  have named := (ev.sys.team_of_spec names t resolved).2
  have codes : ¬ ev.UsesCodes := fun codes => by simpa [reliable.onRequest] using codes.2
  have answers : (ev.query g).Answers ev (.plain (ev.sys.TeamIn (.all q :: .all g :: earlier)) True) True g :=
    reliable.query wf (fun caching => (reliable.plain caching).2 _ List.mem_cons_self) (fun _ => resolves)
      fun coalition listed _ found => ⟨.all g, List.mem_cons_of_mem _ List.mem_cons_self, coalition, listed, found⟩
  obtain ⟨r, l, ran, _, ⟨_, told⟩, foregone⟩ := ((answers.tells request known).and (answers.foregone trivial request known)).gives
    (reliable.assured wf (List.subset_cons_self _ _)) trivial
  refine ⟨r, ⟨l, ran⟩, fun s here reached knows => ?_⟩
  have holds : s ∈ (ev.truth g).members ↔ ev.Attains t (ev.truth q).members s := by
    have achieves : ev.truth g = ev.solution t .canForce ⟨.strong, ev.truth p, ev.truth q⟩ := by rw [truth_aim aims rfl, achieved, resolved]
    rw [achieves, attains_listed codes, solution_known wf free reliable.group (truth_state_set wf p) (truth_state_set wf q) named reached
      knows]
  rw [← holds]
  cases sees : ev.options.observability with
  | full =>
      rw [told (g.every_coalition.mpr fun _ _ _ _ => .inl sees), Region.members_inter]
      exact and_iff_left here
  | limited =>
      have certain : s ∈ ev.Foregone g := (mem_foregone aims).mpr ⟨sees, free, rfl, rfl, reliable.trusts rfl, fun u found => by
        obtain rfl := Except.ok.inj (found.symm.trans resolved)
        exact (wf.reachable_state reached).symm ▸ knows⟩
      rw [foregone s certain, Region.members_inter]
      exact and_iff_left here

/-- Where a coalition knows that a formula holds, it can bring it about if it sees the whole state or its strategies are encoded without
filtering, and the encoding has room. If moves are filtered before they are encoded, some state of the formula has to go on. Where
strategies are listed or searched, the coalition has to have an action that it may take in all the states that it cannot tell apart;
requests find this out as well, if they are reliable for the formula, whatever else the coalition may do. -/
theorem known_goals_attained {d : Description} (built : d.build = .ok ev.sys) (free : ev.sys.fairness = [])
    (group : ev.options.observability = .limited → ev.options.semantics = .group) (resolved : ev.sys.teamOf names = .ok t)
    (aims : g.aim? = some ⟨.canForce, names, .strong, p, q⟩) :
    (ev.options.variant ≠ .onRequest → ∀ fs earlier : List Formula, g ∈ fs → earlier ⊆ fs → KeyedApart (ev.Teams fs) →
      (ev.options.variant = .symbolicFiltered → ∀ f ∈ fs, ∀ h ∈ fs, ∀ x ∈ f.decided ev.usesDual, ∀ y ∈ h.decided ev.usesDual,
        x.text = y.text → x = y) →
      ∀ P Q, ev.AnswersAll (earlier.map .all) p P → ev.AnswersAll (earlier.map .all) q Q →
        (∃ r, ev.AnswersAll (earlier.map .all) g r ∧ ∀ s, ev.sys.Reachable s → ev.sys.Knows t Q.members s →
          (s ∈ r.members ↔ ev.Attains t Q.members s)) ∨
        ev.UsesCodes ∧ ∃ e n, (ev.satisfying g).run (ev.after (earlier.map .all)) = (.error e, n) ∧
          ev.Refuses ⟨g, .canForce, t, ⟨.strong, P, Q⟩⟩ e) ∧
    ∀ earlier, ev.Reliable (.all g :: earlier) q → g.Resolves ev.sys →
      ∃ Q : Region, (∀ request, ev.sys.StateSet request → ev.AnswersAmong earlier q request (Q.inter request)) ∧
        ∀ request, ev.sys.StateSet request → ∃ r, ev.AnswersAmong earlier g request r ∧ ∀ s ∈ request.members, ev.sys.Reachable s →
          ev.sys.Knows t Q.members s → (s ∈ r.members ↔ ev.Attains t Q.members s) := by
  have wf := d.build_well_formed _ built
  constructor
  · intro other fs earlier listed before apart texts P Q first second
    exact answers_known wf (arising_keyed apart texts) free group listed aims resolved other before first second
  · intro earlier reliable resolves
    refine ⟨ev.truth q, fun request known => ?_, fun request known => among_known wf free reliable resolves aims resolved known⟩
    exact reliable.answers wf (List.subset_cons_self _ _) rfl id (resolves_right aims resolves) known

theorem known_goals_attained_lamp : ∃ (sys : System) (t : Team) (u : Options) (g : Formula) (P r Q known : Region),
    lamp.build = .ok sys ∧ sys.teamOf ["hand"] = .ok t ∧ g = .strategicUntil .canForce ["hand"] .strong lampQuestion lampQuestion ∧
    AnswersAll ⟨sys, {}, false⟩ [] lampQuestion P ∧ AnswersAll ⟨sys, {}, false⟩ [] g r ∧
    (∀ s, sys.Reachable s → sys.Knows t P.members s → (s ∈ r.members ↔ sys.Concerted t s)) ∧
    u.variant = .onRequest ∧ u.caching = true ∧ AnswersAmong ⟨sys, u, false⟩ [.all lampQuestion] lampQuestion sys.init (Q.inter sys.init) ∧
    AnswersAmong ⟨sys, u, false⟩ [.all lampQuestion] g sys.init known ∧
    ∀ s ∈ sys.init.members, sys.Reachable s → sys.Knows t Q.members s → (s ∈ known.members ↔ sys.Concerted t s) := by
  obtain ⟨sys, t, built, named, same, commas, ⟨P, k, found⟩, _⟩ := lamp_answered
  let g : Formula := .strategicUntil .canForce ["hand"] .strong lampQuestion lampQuestion
  have wf := lamp.build_well_formed sys built
  have free : sys.fairness = [] := List.forall₂_nil_left_iff.mp (@Description.build_constrained lamp [] sys built).1
  have resolves : g.Resolves sys := by
    have inner : lampQuestion.Resolves sys :=
      (@split_filter_truth ⟨sys, {}, false⟩ _ lampQuestion wf rfl (named_apart wf commas) (fun names _ _ found => ⟨names, found⟩) P k found).2
    exact ⟨⟨t, named⟩, inner, inner⟩
  have reliable : Reliable ⟨sys, lampOptions, false⟩ [.all g, .all lampQuestion] lampQuestion :=
    lamp_reliable named same (by simp [g, Question.formula, Formula.coalitions, lampQuestion]) (by simp [Question.Clear])
      (by simp [g, Question.formula, Formula.Plain, PlainNames, Formula.Every, lampQuestion])
  have own : ∀ {w}, Teams ⟨sys, {}, false⟩ [g] w → w = t := by
    rintro w ⟨f, listed, names, coalition, resolved⟩
    obtain rfl := List.mem_singleton.mp listed
    obtain rfl : names = ["hand"] := by simpa [g, Formula.coalitions, lampQuestion] using coalition
    exact Except.ok.inj (resolved.symm.trans named)
  have first : AnswersAll ⟨sys, {}, false⟩ [] lampQuestion P := ⟨k, found⟩
  obtain ⟨everywhere, _⟩ := @known_goals_attained ⟨sys, {}, false⟩ t ["hand"] g lampQuestion lampQuestion lamp built free (fun _ => rfl) named rfl
  obtain ⟨_, requests⟩ :=
    @known_goals_attained ⟨sys, lampOptions, false⟩ t ["hand"] g lampQuestion lampQuestion lamp built free (fun _ => rfl) named rfl
  obtain ⟨r, answered, known⟩ | ⟨codes, _⟩ := everywhere (fun variant => by cases variant) [g] [] (List.mem_singleton_self g)
    (List.nil_subset _) (fun w x here there _ => (own here).trans (own there).symm) (fun variant => by cases variant) P P first first
  · obtain ⟨Q, second, spec⟩ := requests [.all lampQuestion] reliable resolves
    obtain ⟨among, answeredToo, knownToo⟩ := spec sys.init wf.init
    refine ⟨sys, t, lampOptions, g, P, r, Q, among, built, named, rfl, first, answered, fun s reached knows => ?_, rfl, rfl,
      second sys.init wf.init, answeredToo, fun s here reached knows => ?_⟩
    · simpa [Attains] using known s reached knows
    · simpa [Attains, lampOptions] using knownToo s here reached knows
  · exact codes.2.elim (fun variant => by cases variant) fun variant => by cases variant

end Evaluator

end Coalition
