import Coalition.Proofs.Evaluation.Remembered

-- Every query tells which of the requested states satisfy its formula, although it asks its operands only about some states, and answers
-- that are remembered stay right.

set_option autoImplicit false

namespace Coalition

open Eval

theorem Arena.Encloses.settles_congr {α : Type} {a : Arena α} {K left right left' right' : Set α} (encloses : a.Encloses K)
    (ability : Ability) (kind : GoalKind) (leftLe : left ⊆ a.top) (rightLe : right ⊆ a.top) (leftLe' : left' ⊆ a.top)
    (rightLe' : right' ⊆ a.top) (sameLeft : left ∩ K = left' ∩ K) (sameRight : right ∩ K = right' ∩ K) :
    K ∩ a.settles ability kind left right = K ∩ a.settles ability kind left' right' := by
  have outside : ∀ {X Y : Set α}, X ∩ K = Y ∩ K → (a.top \ X) ∩ K = (a.top \ Y) ∩ K := by
    intro X Y same
    ext m
    have both : m ∈ K → (m ∈ X ↔ m ∈ Y) := fun here =>
      ⟨fun inside => (same.le ⟨inside, here⟩).1, fun inside => (same.ge ⟨inside, here⟩).1⟩
    exact and_congr_left fun here => and_congr_right fun _ => not_congr (both here)
  cases ability with
  | canForce => exact encloses.wins_congr kind sameLeft sameRight
  | cannotAvoid =>
      -- what cannot be avoided is the rest of what the dual goal wins
      have dual : ∀ {kind : GoalKind} {L R L' R' : Set α}, L ∩ K = L' ∩ K → R ∩ K = R' ∩ K →
          K ∩ (a.top \ a.wins kind L R) = K ∩ (a.top \ a.wins kind L' R') := by
        intro kind L R L' R' left right
        have same := encloses.wins_congr kind left right
        rw [Set.inter_comm K, Set.inter_comm K] at same ⊢
        exact outside same
      have lost : ((a.top \ left) ∩ (a.top \ right)) ∩ K = ((a.top \ left') ∩ (a.top \ right')) ∩ K := by
        rw [Set.inter_inter_distrib_right, Set.inter_inter_distrib_right _ _ K, outside sameLeft, outside sameRight]
      cases kind with
      | next =>
          show K ∩ a.permitNext right = K ∩ a.permitNext right'
          rw [Arena.permit_next_dual, Arena.permit_next_dual]
          exact @dual .next ∅ _ ∅ _ rfl (outside sameRight)
      | strong =>
          show K ∩ a.permits .strong left right = K ∩ a.permits .strong left' right'
          rw [(Arena.permits_until_dual leftLe rightLe).1, (Arena.permits_until_dual leftLe' rightLe').1]
          exact dual (outside sameRight) lost
      | weak =>
          show K ∩ a.permits .weak left right = K ∩ a.permits .weak left' right'
          rw [(Arena.permits_until_dual leftLe rightLe).2, (Arena.permits_until_dual leftLe' rightLe').2]
          exact dual (outside sameRight) lost

theorem System.WellFormed.reach_from_encloses {sys : System} (wf : sys.WellFormed) (t : Team) {states : Region}
    (known : sys.StateSet states) : (sys.stateArena t).Encloses (sys.reachFrom states).members := by
  have led := (wf.reach_from_spec known.moves).1
  rintro X s ⟨⟨here, ρ, ⟨inside, forced⟩, same⟩, near⟩
  refine ⟨here, ρ, ⟨inside, fun τ trans state plays => ?_⟩, same⟩
  obtain ⟨σ, there, leads⟩ := forced τ trans state plays
  refine ⟨σ, ⟨there, ?_⟩, leads⟩
  have next := wf.reach_from_stable known s near (sys.nextOf τ) ⟨τ, trans, state.trans same, rfl⟩
  exact (Frame.mem_of_state led.reads (leads.trans (Frame.state_of_next wf.laid τ).symm)).mpr next

-- A query that tells where a formula holds, if it can be trusted or the answer is foregone. The text is a key only if it says which
-- formula it is.
structure Query.Answers (q : Query) (ev : Evaluator) (keys : Ledger) (must : Prop) (f : Formula) : Prop where
  formula : q.formula = f
  tells : Tells ev.sys (ev.Assured keys) must (ev.Trusts f) q.run (ev.truth f)
  keyed : ev.remembers = true → f.Keyed keys.texts
  foregone : keys.foregone → TellsIn ev.sys (ev.Assured keys) must (ev.Foregone f) q.run (ev.truth f)

namespace Evaluator

variable {ev : Evaluator} {keys : Ledger} {must E : Prop}

theorem ask_told (wf : ev.sys.WellFormed) (ready : must → ev.cancelled = false) {f : Formula} {body : Region → Eval Region}
    (keyed : ev.remembers = true → f.Keyed keys.texts)
    (tells : ∀ states, ev.sys.StateSet states → Meets (ev.Assured keys) must (body states) (ev.Answered keys f states)) :
    (ev.ask f body).Answers ev keys must f := by
  have compute : ∀ states, ev.sys.StateSet states → Meets (ev.Assured keys) must
      (if ev.cancelled then throw .canceled else body states) (ev.Answered keys f states) := by
    intro states known
    split
    · rename_i stopped
      exact meets_throw fun needed => by rw [ready needed] at stopped; cases stopped
    · exact tells states known
  have told : ∀ states, ev.sys.StateSet states → Meets (ev.Assured keys) must ((ev.ask f body).run states) (ev.Answered keys f states) := by
    intro states known
    unfold ask
    dsimp only
    rw [known.states_of wf.laid]
    split
    · rename_i none
      have nothing := Region.is_empty_members.mp none
      have same : states = (ev.truth f).inter states := Region.members_injective (by
        rw [Region.members_inter, nothing, Set.inter_empty])
      exact meets_pure ⟨⟨known, fun _ => same⟩, fun _ ρ _ => same ▸ Iff.rfl⟩
    · split
      · rename_i remembers
        exact recall_tells remembers (keyed remembers) compute known
      · exact compute states known
  exact ⟨rfl, fun states known => (told states known).mono fun _ => And.left, keyed,
    fun needed states known => (told states known).mono fun _ found => found.2 needed⟩

abbrev Tells (ev : Evaluator) (keys : Ledger) (must E : Prop) (run : Region → Eval Region) (X : Region) : Prop :=
  Eval.Tells ev.sys (ev.Assured keys) must E run X

section

variable {p q : Query} {P Q : Region} (tellsP : ev.Tells keys must E p.run P) (tellsQ : ev.Tells keys must E q.run Q)

include tellsP

theorem negate_tells : ev.Tells keys must E (Body.negate p) (ev.sys.statesOutside P) := by
  intro states known
  refine meets_bind (tellsP states known) fun r found => meets_pure ⟨known.diff found.1.reads, fun ex => ?_⟩
  refine Region.members_injective (Set.ext fun ρ => ?_)
  simp only [found.2 ex, Frame.statesOutside, Region.members_diff, Region.members_inter]
  constructor
  · rintro ⟨here, not⟩
    exact ⟨⟨known.inside here, fun inside => not ⟨inside, here⟩⟩, here⟩
  · rintro ⟨⟨_, not⟩, here⟩
    exact ⟨here, fun both => not both.1⟩

include tellsQ

theorem both_tells : ev.Tells keys must E (Body.both p q) (P.inter Q) := by
  intro states known
  refine meets_bind (tellsP states known) fun l found => ?_
  split
  · rename_i none
    refine meets_pure ⟨found.1, fun ex => ?_⟩
    have nothing := Region.is_empty_members.mp none
    refine Region.members_injective (Set.ext fun ρ => ⟨fun member => absurd (nothing ▸ member) (Set.notMem_empty ρ), fun member => ?_⟩)
    simp only [Region.members_inter] at member
    rw [found.2 ex, Region.members_inter]
    exact ⟨member.1.1, member.2⟩
  · refine (tellsQ l found.1).mono fun r foundToo => ⟨foundToo.1, fun ex => ?_⟩
    refine Region.members_injective ?_
    rw [foundToo.2 ex, found.2 ex, Region.members_inter, Region.members_inter, Region.members_inter, Region.members_inter,
      ← Set.inter_assoc, Set.inter_comm Q.members]

theorem either_tells : ev.Tells keys must E (Body.either p q) (P.union Q) := by
  intro states known
  refine meets_bind (tellsP states known) fun l found =>
    meets_bind (tellsQ _ (known.diff found.1.reads)) fun r foundToo => meets_pure ⟨found.1.union foundToo.1, fun ex => ?_⟩
  rw [foundToo.2 ex, found.2 ex]
  refine Region.eq_of_contains fun ρ => ?_
  simp only [Region.contains_union, Region.contains_inter, Region.contains_diff]
  cases P.contains ρ <;> cases Q.contains ρ <;> cases states.contains ρ <;> rfl

theorem equally_tells : ev.Tells keys must E (Body.equally p q) ((P.iff Q).inter ev.sys.statesMask) := by
  intro states known
  refine meets_bind (tellsP states known) fun l found => meets_bind (tellsQ states known) fun r foundToo =>
    meets_pure ⟨known.within (found.1.reads.iff foundToo.1.reads), fun ex => ?_⟩
  rw [foundToo.2 ex, found.2 ex]
  refine Region.eq_of_contains fun ρ => ?_
  have inside : states.contains ρ = true → ev.sys.statesMask.contains ρ = true := fun here => known.inside here
  simp only [Region.contains_iff, Region.contains_inter]
  cases here : states.contains ρ with
  | false => simp
  | true => simp [inside here]

end

section

variable (wf : ev.sys.WellFormed) {p q : Query} {P Q : Region} (PKnown : ev.sys.StateSet P) (QKnown : ev.sys.StateSet Q)
  (tellsP : ev.Tells keys must E p.run P) (tellsQ : ev.Tells keys must E q.run Q)

include wf PKnown tellsP

theorem some_next_tells : ev.Tells keys must E (Body.someNext ev p) (ev.sys.someNext ev.sys.fairStates.value P) := by
  intro states known
  have fair := (wf.some_always_spec (.mask _)).1.reads
  refine meets_bind ?_ fun r (found : ev.sys.StateSet r ∧ (E → r = ev.sys.someNext ev.sys.fairStates.value (P.inter (ev.sys.post states)))) =>
    meets_pure ⟨found.1.inter known.reads, fun ex => ?_⟩
  · refine meets_bind (tellsP _ (wf.post_state_set known.moves)) fun x found => meets_bind assured_fair_states fun good same => meets_pure ?_
    subst same
    exact ⟨(wf.some_next_spec fair found.1).1, fun ex => by rw [found.2 ex]⟩
  · rw [found.2 ex]
    exact wf.some_next_local fair PKnown known

theorem some_always_tells : ev.Tells keys must E (Body.someAlways ev p) (ev.sys.someAlways P).value := by
  intro states known
  refine meets_bind ?_ fun r (found : ev.sys.StateSet r ∧ (E → r = (ev.sys.someAlways (P.inter (ev.sys.reachFrom states))).value)) =>
    meets_pure ⟨found.1.inter known.reads, fun ex => ?_⟩
  · refine meets_bind (tellsP _ (wf.reach_from_spec known.moves).1) fun x found => meets_counted assured_lasting ?_
    exact ⟨(wf.some_always_spec found.1).1, fun ex => by rw [found.2 ex]⟩
  · rw [found.2 ex]
    exact wf.some_always_local PKnown known

include QKnown tellsQ

theorem some_until_tells : ev.Tells keys must E (Body.someUntil ev p q) (ev.sys.someUntil ev.sys.fairStates.value P Q).value := by
  intro states known
  have fair := (wf.some_always_spec (.mask _)).1.reads
  have led := (wf.reach_from_spec known.moves).1
  refine meets_bind ?_ fun r (found : ev.sys.StateSet r ∧ (E → r = (ev.sys.someUntil ev.sys.fairStates.value
    (P.inter (ev.sys.reachFrom states)) (Q.inter (ev.sys.reachFrom states))).value)) => meets_pure ⟨found.1.inter known.reads, fun ex => ?_⟩
  · refine meets_bind (tellsP _ led) fun x found => meets_bind (tellsQ _ led) fun y foundToo =>
      meets_bind assured_fair_states fun good same => meets_counted assured_lasting ?_
    subst same
    exact ⟨(wf.some_until_spec fair found.1.reads foundToo.1).1, fun ex => by rw [found.2 ex, foundToo.2 ex]⟩
  · rw [found.2 ex]
    exact wf.some_until_local fair PKnown known QKnown

end

section

variable (wf : ev.sys.WellFormed) {p q : Query} {P Q : Region} (PKnown : ev.sys.StateSet P)

include wf PKnown

theorem related_meets {t : Team} (of : t.Of ev.sys) (sharing : Sharing) {states : Region} (known : ev.sys.StateSet states) :
    Meets (ev.Assured keys) must (Body.related ev sharing t states) fun on => ev.sys.StateSet on ∧
      (ev.suspected sharing t (P.inter on)).inter states = (ev.suspected sharing t P).inter states := by
  have fair := (wf.some_always_spec (.mask _)).1.reads
  cases sharing with
  | distributed => exact meets_pure ⟨ev.sys.equivalents_state_set known.moves, wf.possible_local fair PKnown known of⟩
  | everyone =>
      refine meets_pure ⟨System.WellFormed.equivalents_for_some_state_set known, ?_⟩
      unfold suspected
      dsimp only
      split
      · rfl
      · exact wf.possible_for_some_local fair PKnown known of
  | common =>
      refine meets_counted assured_lasting ⟨(wf.equivalents_by_chain_spec known of).1, ?_⟩
      unfold suspected
      dsimp only
      split
      · exact wf.possible_by_chain_local (Region.reads_empty _) PKnown known of
      · exact wf.possible_by_chain_local fair PKnown known of

variable (tellsP : ev.Tells keys must E p.run P)

include tellsP

theorem possibly_tells (sharing : Sharing) {names : List String} (named : must → ∃ t, ev.sys.teamOf names = .ok t) :
    ev.Tells keys must E (Body.possibly ev sharing names p) (ev.known .possible sharing names P) := by
  intro states known
  unfold Body.possibly Evaluator.known
  cases found : ev.sys.teamOf names with
  | error e =>
      have failed : Meets (ev.Assured keys) must (Eval.ofExcept (.error e) : Eval Team) fun _ => False :=
        meets_throw fun needed => by
          obtain ⟨t, other⟩ := named needed
          rw [found] at other
          cases other
      exact meets_bind failed fun _ impossible => impossible.elim
  | ok t =>
      have of := (ev.sys.team_of_spec names t found).1
      refine meets_bind (meets_of_ok t) fun _ same => ?_
      subst same
      refine meets_bind (related_meets wf PKnown of sharing known) fun on near => meets_bind (tellsP on near.1) fun sat told =>
        meets_bind (assured_possible sharing t sat) fun r answered => meets_pure ?_
      subst answered
      refine ⟨(suspected_state_set wf told.1 of sharing).inter known.reads, fun ex => ?_⟩
      rw [told.2 ex]
      exact near.2

end

section

variable (wf : ev.sys.WellFormed)

include wf

theorem solution_local {t : Team} (named : ev.sys.team t.names = .ok t) (sees : ev.options.observability = .full) (ability : Ability)
    {goal cut : Goal} (left : ev.sys.StateSet goal.left) (right : ev.sys.StateSet goal.right) {states : Region}
    (known : ev.sys.StateSet states) (kind : cut.kind = goal.kind) (sameLeft : cut.left = goal.left.inter (ev.sys.reachFrom states))
    (sameRight : cut.right = goal.right.inter (ev.sys.reachFrom states)) :
    (ev.solution t ability cut).inter states = (ev.solution t ability goal).inter states := by
  have led := (wf.reach_from_spec known.moves).1
  obtain ⟨cutKind, cutLeft, cutRight⟩ := cut
  subst kind sameLeft sameRight
  have whole := (solution_spec wf named left right ability).2.1 sees
  have less := (@solution_spec ev wf t named
    ⟨goal.kind, goal.left.inter (ev.sys.reachFrom states), goal.right.inter (ev.sys.reachFrom states)⟩ (left.inter led.reads)
    (right.inter led.reads) ability).2.1 sees
  have enclosed := (wf.reach_from_encloses t known).settles_congr ability goal.kind (left.inter led.reads).inside (right.inter led.reads).inside
    left.inside right.inside (by rw [Region.members_inter, Set.inter_assoc, Set.inter_self])
    (by rw [Region.members_inter, Set.inter_assoc, Set.inter_self])
  refine Region.members_injective ?_
  have start := wf.subset_reach_from known
  rw [Region.members_inter, Region.members_inter, whole, less]
  ext ρ
  refine and_congr_left fun here => ⟨fun member => (enclosed.le ⟨start here, member⟩).2, fun member => (enclosed.ge ⟨start here, member⟩).2⟩

theorem search_local {t : Team} (named : ev.sys.team t.names = .ok t) (limited : ev.options.observability = .limited)
    (group : ev.options.semantics = .group) (ability : Ability) {goal : Goal} (left : ev.sys.StateSet goal.left)
    (right : ev.sys.StateSet goal.right) {s : Search} (same : s.ev = ev) (team : s.team = t) {states r : Region}
    (known : ev.sys.StateSet states) (found : r.members = (s.close states).members ∩ s.Won goal) :
    r.inter states = (ev.solution t ability goal).inter states := by
  subst same team
  have of := (System.team_spec named).1
  have wins := (solution_spec wf named left right ability).2.2.1 limited
  have won : ∀ ρ, ρ ∈ (s.ev.solution s.team ability goal).members ↔ ρ ∈ s.Won goal := by
    intro ρ
    rw [wins ρ, group]
    rfl
  refine Region.members_injective (Set.ext fun ρ => ?_)
  rw [Region.members_inter, Region.members_inter, found]
  refine and_congr_left fun here => ⟨fun member => (won ρ).mpr member.2, fun member => ⟨?_, (won ρ).mp member⟩⟩
  obtain ⟨_, _, _, ⟨σ, wonHere, state⟩, _⟩ := (won ρ).mp member
  refine Search.subset_close wf group of known here ((Frame.mem_of_state wf.reachable_state_set.reads state).mp ?_)
  exact (wf.protocol_inside of (System.won_protocol wonHere)).2

section

variable {teams : Team → Prop} {certain : Prop} (group : ev.options.observability = .limited → ev.options.semantics = .group)
  (apart : KeyedApart teams)
  (reduces : ev.options.observability = .limited → must → ev.options.early = .threshold → ev.options.threshold.Reduces)
  {names : List String} (named : must → ∃ t, ev.sys.teamOf names = .ok t) (belongs : ∀ t, ev.sys.teamOf names = .ok t → teams t)
  (formula : Formula) (ability : Ability) (kind : GoalKind) {p q : Query} {P Q : Region}

include apart named belongs

omit wf in
theorem achieve_searches (limited : ev.options.observability = .limited) {states : Region} {post : Region → Prop}
    (searched : ∀ t, ev.sys.teamOf names = .ok t → Meets (ev.Assured (.plain teams certain)) must
      (Search.run ⟨ev, t, ev.sys.protocolOf t, ⟨kind, p.run, q.run⟩⟩ (Search.closeStates ev t states)) fun r => post (r.inter states)) :
    Meets (ev.Assured (.plain teams certain)) must (Body.achieve ev formula ability names kind p q states) post := by
  unfold Body.achieve
  refine meets_bind (meets_of_except (fun t found => found) named) fun t found => ?_
  dsimp only
  rw [if_neg (by simp [limited])]
  have own := (ev.sys.team_of_spec names t found).2
  have protocol : Meets (ev.Assured (.plain teams certain)) must (Eval.protocol ev.sys t) fun r => r = ev.sys.protocolOf t :=
    assured_serves fun m owns => serves_protocol apart (belongs t found) owns own
  refine meets_bind (meets_deciding assured_lasting (meets_bind protocol fun region same => ?_)) fun r won => meets_pure won
  rw [same]
  exact searched t found

include group reduces

theorem achieve_tells (alike : E → ∀ t, ev.sys.teamOf names = .ok t → ev.options.observability = .full ∨ ev.sys.SameActions t)
    (PKnown : ev.sys.StateSet P) (QKnown : ev.sys.StateSet Q) (tellsP : kind ≠ .next → ev.Tells (.plain teams certain) must E p.run P)
    (none : kind = .next → P = .empty) (tellsQ : ev.Tells (.plain teams certain) must E q.run Q) :
    ev.Tells (.plain teams certain) must E (Body.achieve ev formula ability names kind p q) (ev.achieved ability names kind P Q) := by
  intro states known
  have tell : Operands.Tell ⟨kind, p.run, q.run⟩ ev.sys ⟨kind, P, Q⟩ (ev.Assured (.plain teams certain)) must E E :=
    ⟨rfl, tellsP, tellsQ, PKnown, QKnown⟩
  cases sees : ev.options.observability with
  | full =>
      unfold Body.achieve
      refine meets_bind (meets_of_except (fun t found => found) named) fun t found => ?_
      dsimp only
      rw [if_pos sees, achieved, found]
      have own := (ev.sys.team_of_spec names t found).2
      have led := (wf.reach_from_spec known.moves).1
      have whole : ∀ task, ev.decide task = (ev.choosing .splitFilter).decide task := by
        intro task
        unfold Evaluator.decide
        rw [if_pos sees, if_pos (show (ev.choosing .splitFilter).options.observability = .full from sees)]
        rfl
      refine meets_bind (tell.on led) fun goal cut => ?_
      have spec := solution_spec wf own cut.leftKnown cut.rightKnown ability
      refine meets_bind (assured_serves (a := ev.solution t ability goal) fun m owns => ?_) fun r answered => meets_pure ?_
      · rw [whole]
        exact spec.2.2.2 teams m formula apart (belongs t found) owns
      · subst answered
        refine ⟨spec.1.inter known.reads, fun ex => solution_local wf own sees ability PKnown QKnown known cut.kind ?_ (cut.right ex)⟩
        by_cases next : kind = .next
        · refine (cut.none next).trans (Region.members_injective ?_)
          rw [none next, Region.members_inter, Region.members_empty, Set.empty_inter]
        · exact cut.left ex next
  | limited =>
      have group := group sees
      refine achieve_searches apart named belongs formula ability kind sees fun t found => ?_
      obtain ⟨of, own⟩ := ev.sys.team_of_spec names t found
      rw [achieved, found]
      have poses : Search.Poses ⟨ev, t, ev.sys.protocolOf t, ⟨kind, p.run, q.run⟩⟩ ⟨kind, P, Q⟩ (ev.Assured (.plain teams certain)) must E E :=
        ⟨wf, of, rfl, tell, assured_lasting, reduces sees, group⟩
      refine (Search.run_spec poses (fun ex _ => (alike ex t found).resolve_left (by simp [sees])) (Search.close_state_set wf known)
        (fun ρ member => ((Search.mem_close wf group of known).mp member).1)
        fun ρ here σ reached looks => Search.close_spread wf group of known here reached looks).mono fun r won =>
          ⟨won.1.inter known.reads, fun ex => ?_⟩
      exact search_local wf own sees group ability PKnown QKnown rfl rfl known (won.2 ex ex)

-- Where the coalition knows that it has reached its goal, the search tells what it achieves, whatever it finds of the left operand.
theorem achieve_tells_known (limited : ev.options.observability = .limited) (free : ev.sys.fairness = []) (PKnown : ev.sys.StateSet P)
    (QKnown : ev.sys.StateSet Q) (tellsP : ev.Tells (.plain teams certain) must E p.run P)
    (tellsQ : ev.Tells (.plain teams certain) must True q.run Q) :
    TellsIn ev.sys (ev.Assured (.plain teams certain)) must {ρ | ∀ t, ev.sys.teamOf names = .ok t → ev.sys.Knows t Q.members (ev.sys.stateOf ρ)}
      (Body.achieve ev formula ability names .strong p q) (ev.achieved ability names .strong P Q) := by
  intro states known
  have group := group limited
  refine achieve_searches apart named belongs formula ability .strong limited fun t found => ?_
  obtain ⟨of, own⟩ := ev.sys.team_of_spec names t found
  have achieves : ev.achieved ability names .strong P Q = ev.solution t ability ⟨.strong, P, Q⟩ := by rw [achieved, found]
  have poses : Search.Poses ⟨ev, t, ev.sys.protocolOf t, ⟨.strong, p.run, q.run⟩⟩ ⟨.strong, P, Q⟩
      (ev.Assured (.plain teams certain)) must E True :=
    ⟨wf, of, rfl, ⟨rfl, fun _ => tellsP, tellsQ, PKnown, QKnown⟩, assured_lasting, reduces limited, group⟩
  refine (Search.run_known poses free rfl trivial (Search.close_state_set wf known)
    (fun ρ member => ((Search.mem_close wf group of known).mp member).1)
    fun ρ here σ reached looks => Search.close_spread wf group of known here reached looks).mono fun r won ρ knows => ?_
  rw [achieves, Region.members_inter, Region.members_inter]
  refine and_congr_left fun here => (won ρ (knows t found)).trans ?_
  have wins := (@solution_spec ev wf t own ⟨.strong, P, Q⟩ PKnown QKnown ability).2.2.1 limited ρ
  rw [group] at wins
  have concerted := fun reached => @System.WellFormed.winnable_iff_concerted _ t ⟨.strong, P, Q⟩ _ wf of free QKnown rfl reached
    (knows t found)
  constructor
  · rintro ⟨near, acts⟩
    have reached := wf.mem_reachable.mp ((Search.mem_close wf group of known).mp near).1
    exact wins.mpr ((concerted reached).mpr acts)
  · intro member
    have winnable := wins.mp member
    obtain ⟨_, _, _, ⟨σ, wonHere, state⟩, _⟩ := id winnable
    have reached : ev.sys.Reachable (ev.sys.stateOf ρ) := state ▸ wf.mem_reachable.mp (wf.protocol_inside of (System.won_protocol wonHere)).2
    exact ⟨Search.subset_close wf group of known here (wf.mem_reachable.mpr reached), (concerted reached).mp winnable⟩

end

end

end Evaluator

end Coalition
