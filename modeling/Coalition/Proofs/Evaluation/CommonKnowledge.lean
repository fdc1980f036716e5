import Coalition.Proofs.Evaluation.Caching
import Coalition.Proofs.Evaluation.FairPath
import Mathlib.Logic.Function.Iterate

-- What the members of a team commonly consider possible is what a chain of their suspicions leads to, so common knowledge is what
-- everyone knows that everyone knows, and so on, and it is known to be common.

set_option autoImplicit false

namespace Coalition

open Eval

namespace System

variable {sys : System} {t : Team} {s u : Valuation}

-- Some member of the team cannot tell a state from a reachable one with a fair path.
def Link (sys : System) (t : Team) (s u : Valuation) : Prop :=
  ∃ a ∈ t.members, (⟨[a]⟩ : Team).Same s u ∧ sys.Reachable u ∧ ∃ path, sys.FairPath u path

def certain (sys : System) (R : Valuation → Valuation → Prop) (X : Set Valuation) : Set Valuation :=
  {s | s ∈ sys.statesMask.members ∧ ∀ u, R s u → u ∈ X}

theorem Link.stay (link : sys.Link t s u) : sys.Link t u u := by
  obtain ⟨a, member, _, known⟩ := link
  exact ⟨a, member, .refl _ u, known⟩

section

variable {R : Valuation → Valuation → Prop} {X : Set Valuation} (states : ∀ s u, R s u → u ∈ sys.statesMask.members)

include states

theorem certain_chain_iff : s ∈ sys.certain (Relation.TransGen R) X ↔ ∀ k, s ∈ (sys.certain R)^[k + 1] X := by
  constructor
  · intro known k
    induction k generalizing s with
    | zero => exact ⟨known.1, fun u step => known.2 u (.single step)⟩
    | succ k ih =>
        rw [Function.iterate_succ_apply']
        exact ⟨known.1, fun u step => ih ⟨states s u step, fun v chain => known.2 v (.head step chain)⟩⟩
  · intro known
    refine ⟨(known 0).1, fun u chain => ?_⟩
    induction chain using Relation.TransGen.head_induction_on with
    | single step => exact (known 0).2 u step
    | head step _ ih =>
        refine ih fun k => ?_
        have more := known (k + 1)
        rw [Function.iterate_succ_apply'] at more
        exact more.2 _ step

-- If every step can be followed by one that stays, chains of chains lead no farther than chains, and no less far.
theorem certain_chain_twice (stays : ∀ s u, R s u → R u u) :
    sys.certain (Relation.TransGen R) (sys.certain (Relation.TransGen R) X) = sys.certain (Relation.TransGen R) X := by
  have last : ∀ {s u}, Relation.TransGen R s u → ∃ v, R v u := fun chain =>
    (Relation.TransGen.tail'_iff.mp chain).imp fun _ => And.right
  ext s
  refine and_congr_right fun _ => ⟨fun known u chain => ?_, fun known u chain => ⟨?_, fun v more => known v (chain.trans more)⟩⟩
  · obtain ⟨v, step⟩ := last chain
    exact (known u chain).2 u (.single (stays v u step))
  · obtain ⟨v, step⟩ := last chain
    exact states v u step

end

namespace WellFormed

variable (wf : sys.WellFormed)

include wf

theorem link_states (link : sys.Link t s u) : u ∈ sys.statesMask.members :=
  wf.reachable_state_set.inside (wf.mem_of_reachable link.choose_spec.2.2.1)

theorem chain_states (chain : Relation.TransGen (sys.Link t) s u) : u ∈ sys.statesMask.members := by
  obtain ⟨v, _, link⟩ := Relation.TransGen.tail'_iff.mp chain
  exact wf.link_states link

section

variable (of : t.Of sys)

include of

theorem link_state : sys.Link t (sys.stateOf s) u ↔ sys.Link t s u := by
  refine exists_congr fun a => and_congr_right fun member => and_congr_left fun _ => ?_
  have same : (⟨[a]⟩ : Team).Same s (sys.stateOf s) :=
    wf.same_state_of (Team.single_of of (List.mem_map_of_mem (f := fun a => (⟨[a]⟩ : Team)) member)) s
  exact ⟨same.trans, same.symm.trans⟩

theorem chain_state : Relation.TransGen (sys.Link t) (sys.stateOf s) u ↔ Relation.TransGen (sys.Link t) s u := by
  rw [Relation.TransGen.head'_iff, Relation.TransGen.head'_iff]
  exact exists_congr fun v => and_congr_left fun _ => wf.link_state of

omit of in
theorem suspects_of_link {X : Set Valuation} (state : s ∈ sys.statesMask.members) (inside : u ∈ X) (link : sys.Link t s u) :
    s ∈ sys.suspectsSome sys.fairStates.value.members t X := by
  obtain ⟨a, member, same, reached, fair⟩ := link
  have fairly := (wf.mem_fair_states (wf.reachable_state reached)).mpr fair
  exact ⟨⟨[a]⟩, List.mem_map_of_mem member, state, u, inside, wf.mem_of_reachable reached, fairly, same.symm⟩

theorem link_of_suspects {X : Set Valuation} (member : s ∈ sys.suspectsSome sys.fairStates.value.members t X) :
    s ∈ sys.statesMask.members ∧ ∃ σ ∈ X, sys.Link t s (sys.stateOf σ) := by
  obtain ⟨w, single, state, σ, inside, reached, fair, same⟩ := member
  obtain ⟨a, member, rfl⟩ := List.mem_map.mp single
  have fairly := (Frame.mem_state_of wf.fair_state_set.reads).mpr fair
  have alike := same.symm.trans (wf.same_state_of (Team.single_of of single) σ)
  exact ⟨state, σ, inside, a, member, alike, wf.mem_reachable.mp reached, (wf.mem_fair_states (Frame.state_of_state σ)).mp fairly⟩

variable {φ : Region} (known : sys.StateSet φ)

include known

theorem mem_suspects_some : s ∈ sys.suspectsSome sys.fairStates.value.members t φ.members ↔
    s ∈ sys.statesMask.members ∧ ∃ u ∈ φ.members, sys.Link t s u := by
  constructor
  · intro member
    obtain ⟨state, σ, inside, link⟩ := wf.link_of_suspects of member
    exact ⟨state, _, (Frame.mem_state_of known.reads).mpr inside, link⟩
  · rintro ⟨state, u, inside, link⟩
    exact wf.suspects_of_link state inside link

theorem mem_suspects_chain : s ∈ OrderHom.lfp (sys.suspectsChain sys.fairStates.value.members t φ.members) ↔
    s ∈ sys.statesMask.members ∧ ∃ u ∈ φ.members, Relation.TransGen (sys.Link t) s u := by
  constructor
  · intro member
    suffices all : OrderHom.lfp (sys.suspectsChain sys.fairStates.value.members t φ.members) ⊆
        {s | s ∈ sys.statesMask.members ∧ ∃ u ∈ φ.members, Relation.TransGen (sys.Link t) s u} from all member
    apply OrderHom.lfp_le
    intro s more
    obtain ⟨state, σ, ⟨_, u, inside, chain⟩ | inside, link⟩ := wf.link_of_suspects of more
    · exact ⟨state, u, inside, .head link ((wf.chain_state of).mpr chain)⟩
    · exact ⟨state, _, (Frame.mem_state_of known.reads).mpr inside, .single link⟩
  · rintro ⟨state, u, inside, chain⟩
    induction chain using Relation.TransGen.head_induction_on with
    | single link =>
        rw [← OrderHom.map_lfp]
        exact wf.suspects_of_link state (.inr inside) link
    | head link _ ih =>
        rw [← OrderHom.map_lfp]
        exact wf.suspects_of_link state (.inl (ih (wf.link_states link))) link

end

end WellFormed

end System

namespace Evaluator

variable {ev : Evaluator} {t : Team} {names : List String} {X : Region}

section

variable (wf : ev.sys.WellFormed)

include wf

section

variable (of : t.Of ev.sys) (known : ev.sys.StateSet X)

include of known

theorem mem_suspected_everyone {s : Valuation} : s ∈ (ev.suspected .everyone t X).members ↔
    s ∈ ev.sys.statesMask.members ∧ ∃ u ∈ X.members, ev.sys.Link t s u := by
  rw [← wf.mem_suspects_some of known, ← (wf.possible_for_some_spec of wf.fair_state_set.reads known).2]
  unfold suspected
  dsimp only
  split
  · rename_i none
    simp [System.possibleForSome, Team.singles, List.isEmpty_iff.mp none, Region.unionAll]
  · exact Iff.rfl

theorem mem_suspected_common {s : Valuation} : s ∈ (ev.suspected .common t X).members ↔
    s ∈ ev.sys.statesMask.members ∧ ∃ u ∈ X.members, Relation.TransGen (ev.sys.Link t) s u := by
  rw [← wf.mem_suspects_chain of known]
  unfold suspected
  dsimp only
  split
  · rename_i none
    have same : ev.sys.suspectsChain Region.empty.members t X.members =
        ev.sys.suspectsChain ev.sys.fairStates.value.members t X.members := by
      ext Z ρ
      simp [System.suspectsChain, System.suspectsSome, Team.singles, List.isEmpty_iff.mp none]
    rw [(wf.possible_by_chain_spec of (Region.reads_empty _) known).2, same]
  · rw [(wf.possible_by_chain_spec of wf.fair_state_set.reads known).2]

end

variable (resolved : ev.sys.teamOf names = .ok t) (known : ev.sys.StateSet X)

include resolved

omit wf in
theorem known_certain {sharing : Sharing} {R : Valuation → Valuation → Prop} (states : ∀ s u, R s u → u ∈ ev.sys.statesMask.members)
    (suspected : ∀ {s}, s ∈ (ev.suspected sharing t (ev.sys.statesOutside X)).members ↔
      s ∈ ev.sys.statesMask.members ∧ ∃ u ∈ (ev.sys.statesOutside X).members, R s u) :
    (ev.known .known sharing names X).members = ev.sys.certain R X.members := by
  have possibly : ev.known .known sharing names X = ev.sys.statesOutside (ev.suspected sharing t (ev.sys.statesOutside X)) := by
    unfold Evaluator.known
    rw [resolved]
  have outside : ∀ {Y : Region} {u}, u ∈ (ev.sys.statesOutside Y).members ↔ u ∈ ev.sys.statesMask.members ∧ u ∉ Y.members := by
    intro Y u
    rw [Frame.statesOutside, Region.members_diff, Set.mem_sdiff]
  ext s
  rw [possibly, outside, suspected]
  refine and_congr_right fun state => ⟨fun certain u step => ?_, fun certain fails => ?_⟩
  · by_contra other
    exact certain ⟨state, u, outside.mpr ⟨states s u step, other⟩, step⟩
  · obtain ⟨_, u, lost, step⟩ := fails
    exact (outside.mp lost).2 (certain u step)

include known

theorem known_everyone : (ev.known .known .everyone names X).members = ev.sys.certain (ev.sys.Link t) X.members :=
  known_certain resolved (fun _ _ => wf.link_states)
    (mem_suspected_everyone wf (ev.sys.team_of_spec names t resolved).1 (.outside known.reads))

theorem known_common :
    (ev.known .known .common names X).members = ev.sys.certain (Relation.TransGen (ev.sys.Link t)) X.members :=
  known_certain resolved (fun _ _ => wf.chain_states)
    (mem_suspected_common wf (ev.sys.team_of_spec names t resolved).1 (.outside known.reads))

theorem known_levels (k : Nat) : ev.sys.StateSet ((ev.known .known .everyone names)^[k] X) ∧
    ((ev.known .known .everyone names)^[k] X).members = (ev.sys.certain (ev.sys.Link t))^[k] X.members := by
  induction k with
  | zero => exact ⟨known, rfl⟩
  | succ k ih =>
      rw [Function.iterate_succ_apply', Function.iterate_succ_apply', ← ih.2]
      exact ⟨known_state_set wf ih.1 .known .everyone names, known_everyone wf resolved ih.1⟩

theorem mem_known_common {s : Valuation} : s ∈ (ev.known .known .common names X).members ↔
    ∀ k, s ∈ ((ev.known .known .everyone names)^[k + 1] X).members := by
  rw [known_common wf resolved known, System.certain_chain_iff fun _ _ => wf.link_states]
  exact forall_congr' fun k => by rw [(known_levels wf resolved known (k + 1)).2]

theorem known_common_twice : ev.known .known .common names (ev.known .known .common names X) = ev.known .known .common names X := by
  have again : ev.sys.StateSet (ev.known .known .common names X) := known_state_set wf known .known .common names
  refine Region.members_injective ?_
  rw [known_common wf resolved again, known_common wf resolved known]
  exact System.certain_chain_twice (fun _ _ => wf.link_states) fun _ _ => System.Link.stay

end

section

variable {m : Memory} {x : Eval Region}

def Fairly (ev : Evaluator) (m : Memory) : Prop := ∀ fair ∈ m.fair, fair = ev.sys.fairStates.value

def Leads (ev : Evaluator) (x : Eval Region) (m : Memory) (X : Region) : Prop := Ends x m fun r n => r = X ∧ ev.Fairly n

theorem leads_possible (fairly : ev.Fairly m) (sharing : Sharing) (t : Team) (X : Region) :
    ev.Leads (ev.possible sharing t X) m (ev.suspected sharing t X) := by
  have lasting : Lasting ev.Fairly := fun _ _ known => known
  have states : Meets ev.Fairly True ev.fairStates fun r => r = ev.sys.fairStates.value :=
    meets_of_ends fun n known => by
      obtain ⟨c, ran⟩ := fair_states_run ev known
      exact ⟨_, _, ran, rfl, by simp [Fairly]⟩
  obtain ⟨r, n, ran, known, same⟩ := (possible_meets lasting states sharing t X).gives fairly trivial
  exact ⟨r, n, ran, same, known⟩

theorem leads_knows (resolved : ev.sys.teamOf names = .ok t) (sharing : Sharing) (leads : ev.Leads x m X) :
    ev.Leads (ev.knowledge .known sharing names x) m (ev.known .known sharing names X) := by
  have negates : ∀ {y : Eval Region} {Y : Region}, ev.Leads y m Y → ev.Leads (ev.negate y) m (ev.sys.statesOutside Y) :=
    fun leads => ends_bind leads fun _ _ found => ends_pure ⟨found.1 ▸ rfl, found.2⟩
  unfold Evaluator.knowledge Evaluator.known possibly
  rw [resolved]
  have asked : Ends (Eval.ofExcept (.ok t)) m fun u n => u = t ∧ n = m := ⟨t, m, rfl, rfl, rfl⟩
  refine negates (ends_bind asked fun u n same => ?_)
  obtain ⟨rfl, rfl⟩ := same
  refine ends_bind (negates leads) fun r k found => ?_
  obtain ⟨rfl, fairly⟩ := found
  exact leads_possible fairly sharing u _

end

end Evaluator

namespace Formula

variable {atom : String → Prop} {named coalition : List String → Prop} {names : List String}

def common (names : List String) (f : Formula) : Formula := .groupKnows .known .common names f

def everyone (names : List String) (f : Formula) : Formula := .groupKnows .known .everyone names f

theorem every_levels (known : named names) {f : Formula} (every : f.Every atom named coalition) (k : Nat) :
    ((everyone names)^[k] f).Every atom named coalition := by
  induction k with
  | zero => exact every
  | succ k ih =>
      rw [Function.iterate_succ_apply']
      exact ⟨known, ih⟩

theorem coalitions_levels (names : List String) (f : Formula) (k : Nat) : ((everyone names)^[k] f).coalitions = f.coalitions := by
  induction k with
  | zero => rfl
  | succ k ih =>
      rw [Function.iterate_succ_apply']
      exact ih

end Formula

namespace Evaluator

variable {ev : Evaluator} {t : Team} {names : List String}

theorem truth_levels (f : Formula) (k : Nat) :
    ev.truth ((Formula.everyone names)^[k] f) = (ev.known .known .everyone names)^[k] (ev.truth f) := by
  induction k with
  | zero => rfl
  | succ k ih =>
      rw [Function.iterate_succ_apply', Function.iterate_succ_apply', ← ih]
      rfl

theorem leads_levels (resolved : ev.sys.teamOf names = .ok t) {f : Formula} {m : Memory} {X : Region}
    (leads : ev.Leads (ev.everywhere f) m X) (k : Nat) :
    ev.Leads (ev.everywhere ((Formula.everyone names)^[k] f)) m ((ev.known .known .everyone names)^[k] X) := by
  induction k with
  | zero => exact leads
  | succ k ih =>
      rw [Function.iterate_succ_apply', Function.iterate_succ_apply']
      exact leads_knows resolved .everyone ih

section

variable {d : Description} (built : d.build = .ok ev.sys) (resolved : ev.sys.teamOf names = .ok t) {f : Formula} {states : Region}

include built resolved

theorem answers_levels (other : ev.options.variant ≠ .onRequest) {asked : List Question} (clear : ∀ q ∈ asked, q.Clear ev.sys)
    (answered : ev.AnswersAll asked f states) : ev.sys.StateSet states ∧
      ev.AnswersAll asked (f.common names) (ev.known .known .common names states) ∧
      ev.AnswersAll asked ((f.common names).common names) (ev.known .known .common names states) ∧
      ∀ k, ev.AnswersAll asked ((Formula.everyone names)^[k] f) ((ev.known .known .everyone names)^[k] states) := by
  have wf := d.build_well_formed _ built
  have whole := answered.everywhere other
  obtain ⟨k, found⟩ := answered
  have kept : (ev.after asked).Kept ev.sys fun _ => True := after_kept wf clear fun _ _ => trivial
  obtain ⟨still, sets⟩ := Keeps.run (keeps_satisfying wf f fun _ _ _ _ => trivial) kept
  have known := sets states k found
  rw [found] at still
  have leads : ev.Leads (ev.everywhere f) (ev.after asked) states := ⟨states, k, whole f ▸ found, rfl, still.sound.fair⟩
  have answers : ∀ {g r}, ev.Leads (ev.everywhere g) (ev.after asked) r → ev.AnswersAll asked g r := by
    rintro g r ⟨_, n, ran, rfl, _⟩
    exact ⟨n, whole g ▸ ran⟩
  have first : ev.Leads (ev.everywhere (f.common names)) (ev.after asked) (ev.known .known .common names states) :=
    leads_knows resolved .common leads
  have second : ev.Leads (ev.everywhere ((f.common names).common names)) (ev.after asked)
      (ev.known .known .common names (ev.known .known .common names states)) := leads_knows resolved .common first
  rw [known_common_twice wf resolved known] at second
  exact ⟨known, answers first, answers second, fun k => answers (leads_levels resolved leads k)⟩

theorem among_levels {earlier : List Question} (reliable : ev.Reliable earlier (f.common names)) (resolves : f.Resolves ev.sys)
    {request : Region} (known : ev.sys.StateSet request) :
    ev.AnswersAmong earlier (f.common names) request ((ev.known .known .common names (ev.truth f)).inter request) ∧
      ev.AnswersAmong earlier ((f.common names).common names) request ((ev.known .known .common names (ev.truth f)).inter request) ∧
      ∀ k, ev.AnswersAmong earlier ((Formula.everyone names)^[k] f) request
        (((ev.known .known .everyone names)^[k] (ev.truth f)).inter request) := by
  have wf := d.build_well_formed _ built
  have once : (f.common names).Resolves ev.sys := ⟨⟨t, resolved⟩, resolves⟩
  have first := reliable.answers wf (List.Subset.refl _) rfl id once known
  have second := reliable.answers (g := (f.common names).common names) wf (List.Subset.refl _) rfl (fun plain => ⟨plain.1, plain⟩)
    ⟨⟨t, resolved⟩, once⟩ known
  refine ⟨first, ?_, fun k => ?_⟩
  · rw [← known_common_twice wf resolved (truth_state_set wf f)]
    exact second
  · rw [← truth_levels]
    exact reliable.answers wf (List.Subset.refl _) (Formula.coalitions_levels names f k) (fun plain => Formula.every_levels plain.1 plain.2 k)
      (Formula.every_levels ⟨t, resolved⟩ resolves k) known

end

/-- What a group commonly considers possible is what chains of suspicions of its members lead to, among reachable fair states. So a formula
is common knowledge where everyone knows it, and knows that everyone knows it, and so on, and then this is common knowledge. Requests
for some states are answered in the same way, if they are reliable for the formula. -/
theorem common_knowledge_chains {d : Description} {sys : System} (built : d.build = .ok sys) (resolved : sys.teamOf names = .ok t)
    {o : Options} {stopped : Bool} {asked : List Question} (clear : ∀ q ∈ asked, q.Clear sys) :
    (∀ states, sys.StateSet states → ∃ r n,
      (possible ⟨sys, o, stopped⟩ .common t states).run (after ⟨sys, o, stopped⟩ asked) = (.ok r, n) ∧
      ∀ s ∈ sys.statesMask.members, s ∈ r.members ↔ ∃ u ∈ states.members, Relation.TransGen (sys.Link t) s u) ∧
    (o.variant ≠ .onRequest → ∀ f states, AnswersAll ⟨sys, o, stopped⟩ asked f states →
      ∃ (common : Region) (level : Nat → Region),
      AnswersAll ⟨sys, o, stopped⟩ asked (f.common names) common ∧
      AnswersAll ⟨sys, o, stopped⟩ asked ((f.common names).common names) common ∧
      (∀ k, AnswersAll ⟨sys, o, stopped⟩ asked ((Formula.everyone names)^[k + 1] f) (level k)) ∧
      common.members = ⋂ k, (level k).members ∧
      (o.variant = .splitFilter → asked = [] → ∀ (u : Options) (earlier : List Question), u.observability = o.observability →
        u.semantics = o.semantics → Reliable ⟨sys, u, false⟩ earlier (f.common names) → ∀ request, sys.StateSet request →
          AnswersAmong ⟨sys, u, false⟩ earlier (f.common names) request (common.inter request) ∧
          AnswersAmong ⟨sys, u, false⟩ earlier ((f.common names).common names) request (common.inter request) ∧
          ∀ k, AnswersAmong ⟨sys, u, false⟩ earlier ((Formula.everyone names)^[k + 1] f) request ((level k).inter request))) := by
  have wf := d.build_well_formed _ built
  let ev : Evaluator := ⟨sys, o, stopped⟩
  have of := (sys.team_of_spec names t resolved).1
  have kept : (ev.after asked).Kept sys fun _ => True := after_kept wf clear fun _ _ => trivial
  constructor
  · intro states known
    obtain ⟨r, n, ran, rfl, _⟩ := @leads_possible ev _ kept.sound.fair .common t states
    exact ⟨_, n, ran, fun s state => (@mem_suspected_common ev t states wf of known s).trans (and_iff_right state)⟩
  · rintro other f states answered
    obtain ⟨known, first, second, levels⟩ := @answers_levels ev t names d built resolved f states other asked clear answered
    refine ⟨_, _, first, second, fun k => levels (k + 1), ?_, ?_⟩
    · exact Set.ext fun s => (@mem_known_common ev t names states wf resolved known s).trans Set.mem_iInter.symm
    rintro split rfl u earlier sees semantics reliable request requested
    obtain ⟨k, found⟩ := answered
    obtain ⟨rfl, resolves⟩ := @split_filter_truth ev _ f wf split reliable.apart
      (fun names listed t found => ⟨_, List.mem_cons_self, names, listed, found⟩) states k found
    have same : ev.truth f = (⟨sys, u, false⟩ : Evaluator).truth f := truth_congr wf sees.symm semantics.symm f
    obtain ⟨among, again, each⟩ := @among_levels ⟨sys, u, false⟩ t names d built resolved f earlier reliable resolves request requested
    rw [same]
    exact ⟨among, again, fun k => each (k + 1)⟩

theorem common_knowledge_chains_lamp : ∃ (sys : System) (t : Team) (u : Options) (states common : Region) (level : Nat → Region),
    lamp.build = .ok sys ∧ sys.teamOf ["hand"] = .ok t ∧ u.variant = .onRequest ∧ u.caching = true ∧
    AnswersAll ⟨sys, {}, false⟩ [] lampQuestion states ∧ AnswersAll ⟨sys, {}, false⟩ [] (lampQuestion.common ["hand"]) common ∧
    (∀ k, AnswersAll ⟨sys, {}, false⟩ [] ((Formula.everyone ["hand"])^[k + 1] lampQuestion) (level k)) ∧
    common.members = ⋂ k, (level k).members ∧
    AnswersAmong ⟨sys, u, false⟩ [.all lampQuestion] (lampQuestion.common ["hand"]) sys.init (common.inter sys.init) := by
  obtain ⟨sys, t, built, named, same, _, ⟨states, k, found⟩, _⟩ := lamp_answered
  have plain : lampQuestion.Plain := ⟨by simp [PlainNames], by simp [Formula.Every]⟩
  have reliable : Reliable ⟨sys, lampOptions, false⟩ [.all lampQuestion] (lampQuestion.common ["hand"]) := by
    refine lamp_reliable named same (fun q listed names coalition => ?_) (by simp [Question.Clear]) (List.forall_mem_cons.mpr
      ⟨⟨by simp [PlainNames], plain⟩, List.forall_mem_singleton.mpr plain⟩)
    simp only [List.mem_cons, List.not_mem_nil, or_false] at listed
    obtain rfl | rfl := listed <;> exact List.mem_singleton.mp coalition
  obtain ⟨_, knows⟩ := @common_knowledge_chains t ["hand"] lamp sys built named {} false [] (List.forall_mem_nil _)
  obtain ⟨common, level, first, _, levels, meets, requests⟩ := knows (by decide) lampQuestion states ⟨k, found⟩
  obtain ⟨among, _⟩ := requests rfl rfl lampOptions [.all lampQuestion] rfl rfl reliable sys.init (lamp.build_well_formed sys built).init
  exact ⟨sys, t, lampOptions, states, common, level, built, named, rfl, rfl, ⟨k, found⟩, first, levels, meets, among⟩

end Evaluator

end Coalition
