import Coalition.Proofs.Evaluation.Everywhere
import Coalition.Proofs.Evaluation.Reached

-- Answers in memory agree with the formulas that can be trusted, and may be required to agree with others where these are foregone.

set_option autoImplicit false

namespace Coalition

open Eval

-- What is remembered is looked up by some keys, and answers may have to be right where they are foregone.
structure Ledger extends Keys where
  foregone : Prop

instance : Coe Keys Ledger := ⟨fun keys => ⟨keys, False⟩⟩

namespace Ledger

abbrev plain (teams : Team → Prop) (foregone : Prop) : Ledger := ⟨Keys.plain teams, foregone⟩

end Ledger

instance : Coe (Team → Prop) Ledger := ⟨fun teams => .plain teams False⟩

namespace Evaluator

def KnowsOf (ev : Evaluator) (names : List String) (f : Formula) : Set Valuation :=
  {ρ | ev.Trusts f ∧ ∀ t, ev.sys.teamOf names = .ok t → ev.sys.Knows t (ev.truth f).members (ev.sys.stateOf ρ)}

-- The states for which the search answers a formula in any case: the coalition knows that it has brought the goal about already.
def Foregone (ev : Evaluator) (f : Formula) : Set Valuation :=
  {ρ | ev.options.observability = .limited ∧ ev.sys.fairness = [] ∧ match f with
    | .strategic .canForce names .eventually g => ρ ∈ ev.KnowsOf names g
    | .strategicUntil .canForce names .strong _ g => ρ ∈ ev.KnowsOf names g
    | _ => False}

theorem mem_foregone {ev : Evaluator} {f : Formula} {aim : Aim} (aims : f.aim? = some aim) {ρ : Valuation} :
    ρ ∈ ev.Foregone f ↔ ev.options.observability = .limited ∧ ev.sys.fairness = [] ∧
      aim.ability = .canForce ∧ aim.kind = .strong ∧ ρ ∈ ev.KnowsOf aim.names aim.right := by
  cases f <;> try cases aims
  · rename_i ability names modality body
    cases ability <;> cases modality <;> simp [Foregone]
  · rename_i ability names kind left right
    cases ability <;> cases kind <;> simp [Foregone, Until.goal]

theorem spelled_foregone {ev : Evaluator} {f : Formula} {ρ : Valuation} (foregone : ρ ∈ ev.Foregone f) :
    f.spelled ev.usesDual = f := by
  have forces : ¬ ev.usesDual .canForce = true := by simp [usesDual]
  obtain ⟨_, _, listed⟩ := foregone
  cases f with
  | strategic ability names modality body =>
      cases ability
      · rw [Formula.spelled, if_neg forces]
      · exact listed.elim
  | strategicUntil ability names kind left right =>
      cases ability
      · rw [Formula.spelled, if_neg forces]
      · exact listed.elim
  | _ => exact listed.elim

structure Assures (ev : Evaluator) (keys : Ledger) (key : String) (known : Known) : Prop extends ev.Vouches keys.toKeys key known where
  sure : keys.foregone → ∀ f : Formula, f.Keyed keys.texts → f.text = key → ∀ ρ ∈ ev.Foregone f,
    (ρ ∈ known.yes.members → ρ ∈ (ev.truth f).members) ∧ (ρ ∈ known.no.members → ρ ∉ (ev.truth f).members)

structure Assured (ev : Evaluator) (keys : Ledger) (m : Memory) : Prop extends ev.Honest keys.toKeys m where
  sure : ev.remembers = true → ∀ entry ∈ m.answers.entries, ev.Assures keys entry.1 entry.2

variable {ev : Evaluator} {keys : Ledger} {must : Prop}

theorem empty_assured (ev : Evaluator) (keys : Ledger) : ev.Assured keys {} := ⟨empty_honest ev keys.toKeys, by simp⟩

theorem assured_lasting : Lasting (ev.Assured keys) := fun m c kept => ⟨honest_lasting m c kept.toHonest, kept.sure⟩

theorem Assured.same {m n : Memory} (kept : ev.Assured keys m) (honest : ev.Honest keys.toKeys n) (same : n.answers = m.answers) :
    ev.Assured keys n := ⟨honest, same ▸ kept.sure⟩

theorem Honest.assured {keys : Keys} {m : Memory} (kept : ev.Honest keys m) : ev.Assured keys m :=
  ⟨kept, fun remembers entry listed => ⟨kept.answers remembers entry listed, False.elim⟩⟩

theorem meets_honest {keys : Keys} {α : Type} {x : Eval α} {post : α → Prop} (meets : Meets (ev.Assured keys) must x post) :
    Meets (ev.Honest keys) must x post := fun m kept => ⟨(meets m kept.assured).1.toHonest, (meets m kept.assured).2⟩

theorem assured_serves {α : Type} {x : Eval α} {a : α}
    (serves : ∀ m : Memory, (∀ u, keys.teams u → m.Owns ev.sys u) → Serves ev.sys keys.teams x m a) :
    Meets (ev.Assured keys) must x fun b => b = a := by
  refine meets_of_ends fun m kept => ends_mono (serves m kept.owns) fun b n known => ?_
  obtain ⟨same, owns, fair, answers⟩ := known
  exact ⟨same, kept.same ⟨owns, fair ▸ kept.fair, answers ▸ kept.answers⟩ answers⟩

theorem assured_fair_states : Meets (ev.Assured keys) must ev.fairStates fun r => r = ev.sys.fairStates.value := by
  refine meets_of_ends fun m kept => ?_
  obtain ⟨c, ran⟩ := fair_states_run ev kept.fair
  refine ⟨_, _, ran, rfl, kept.same ⟨fun u listed => ?_, by simp, kept.answers⟩ rfl⟩
  exact ⟨(kept.owns u listed).protocol, (kept.owns u listed).unfair, (kept.owns u listed).fair⟩

theorem assured_possible (sharing : Sharing) (t : Team) (states : Region) :
    Meets (ev.Assured keys) must (ev.possible sharing t states) fun r => r = ev.suspected sharing t states :=
  possible_meets assured_lasting assured_fair_states sharing t states

theorem Assured.remember {m : Memory} (kept : ev.Assured keys m) {a : Answers}
    (entries : ev.remembers = true → ∀ entry ∈ a.entries, entry ∈ m.answers.entries ∨ ev.Assures keys entry.1 entry.2) :
    ev.Assured keys { m with answers := a } :=
  have sure := fun remembers entry listed => (entries remembers entry listed).elim (kept.sure remembers entry) id
  ⟨⟨fun u listed => ⟨(kept.owns u listed).protocol, (kept.owns u listed).unfair, (kept.owns u listed).fair⟩, kept.fair,
    fun remembers entry listed => (sure remembers entry listed).toVouches⟩, sure⟩

theorem mem_put {a : Answers} {key : String} {known : Known} {entry : String × Known} (listed : entry ∈ (a.put key known).entries) :
    entry ∈ a.entries ∨ entry = (key, known) := by
  obtain same | other := List.mem_cons.mp listed
  · exact .inr same
  · exact .inl (List.mem_filter.mp other).1

theorem assures_nothing (key : String) : ev.Assures keys key {} :=
  ⟨⟨.empty _, .empty _, fun f _ _ _ => ⟨by simp, by simp⟩⟩, fun _ f _ _ _ _ => ⟨by simp, by simp⟩⟩

theorem Assured.find {m : Memory} (kept : ev.Assured keys m) (remembers : ev.remembers = true) (key : String) :
    ev.Assures keys key ((m.answers.find? key).getD {}) := by
  cases found : m.answers.find? key with
  | none => exact assures_nothing key
  | some known =>
      obtain ⟨before, _, listed, _⟩ := List.lookup_eq_some_iff.mp found
      exact kept.sure remembers (key, known) (by simp [listed])

theorem Assured.touch {m : Memory} (kept : ev.Assured keys m) (key : String) :
    ev.Assured keys { m with answers := m.answers.touch key } := by
  refine kept.remember fun remembers entry listed => ?_
  unfold Answers.touch at listed
  cases found : m.answers.find? key with
  | none =>
      rw [found] at listed
      exact .inl listed
  | some known =>
      rw [found] at listed
      refine (mem_put listed).imp id fun same => ?_
      have assures := kept.find remembers key
      rw [found] at assures
      exact same ▸ assures

theorem Assured.store {m : Memory} (kept : ev.Assured keys m) {key : String} {known : Known} (assures : ev.Assures keys key known) (size : Nat) :
    ev.Assured keys { m with answers := m.answers.store size key known } := by
  refine kept.remember fun _ entry listed => ?_
  obtain before | rfl := mem_put (List.mem_of_mem_take listed)
  · exact .inl before
  · exact .inr assures

def Answered (ev : Evaluator) (keys : Ledger) (f : Formula) (states r : Region) : Prop :=
  (ev.sys.StateSet r ∧ (ev.Trusts f → r = (ev.truth f).inter states)) ∧
    (keys.foregone → ∀ ρ ∈ ev.Foregone f, ρ ∈ r.members ↔ ρ ∈ ((ev.truth f).inter states).members)

theorem Assures.more {f : Formula} (keyed : f.Keyed keys.texts) {known : Known} (assures : ev.Assures keys f.text known) {remaining sat : Region}
    (remainingKnown : ev.sys.StateSet remaining) (told : ev.Answered keys f remaining sat) :
    ev.Assures keys f.text ⟨known.yes.union sat, known.no.union (remaining.diff sat)⟩ := by
  obtain ⟨⟨satKnown, right⟩, sure⟩ := told
  refine ⟨⟨assures.yes.union satKnown, assures.no.union (remainingKnown.diff satKnown.reads), fun g keyedToo trusts same => ?_⟩,
    fun needed g keyedToo same ρ foregone => ?_⟩
  · obtain ⟨yes, no⟩ := assures.right g keyedToo trusts same
    obtain rfl := Formula.text_injective keys.apart keyedToo keyed same
    have told := right trusts
    simp only [Region.members_union, Region.members_diff, told, Region.members_inter]
    refine ⟨Set.union_subset yes Set.inter_subset_left, fun ρ member holds => ?_⟩
    obtain before | now := member
    · exact no ρ before holds
    · exact now.2 ⟨holds, now.1⟩
  · obtain ⟨yes, no⟩ := assures.sure needed g keyedToo same ρ foregone
    obtain rfl := Formula.text_injective keys.apart keyedToo keyed same
    have now := sure needed ρ foregone
    rw [Region.members_inter] at now
    simp only [Region.members_union, Region.members_diff]
    refine ⟨fun member => member.elim yes fun found => (now.mp found).1, fun member => member.elim no fun lost holds => ?_⟩
    exact lost.2 (now.mpr ⟨holds, lost.1⟩)

theorem Assures.answer {f : Formula} (keyed : f.Keyed keys.texts) {known : Known} (assures : ev.Assures keys f.text known) (trusts : ev.Trusts f)
    {states : Region} (all : states.members ⊆ known.yes.members ∪ known.no.members) :
    known.yes.inter states = (ev.truth f).inter states := by
  obtain ⟨yes, no⟩ := assures.right f keyed trusts rfl
  refine Region.members_injective ?_
  rw [Region.members_inter, Region.members_inter]
  refine Set.Subset.antisymm (Set.inter_subset_inter_left _ yes) fun ρ member => ⟨?_, member.2⟩
  exact (all member.2).resolve_right fun other => no ρ other member.1

theorem Assures.answer_foregone {f : Formula} (keyed : f.Keyed keys.texts) {known : Known} (assures : ev.Assures keys f.text known)
    (needed : keys.foregone) {states : Region} (all : states.members ⊆ known.yes.members ∪ known.no.members) {ρ : Valuation}
    (foregone : ρ ∈ ev.Foregone f) :
    ρ ∈ (known.yes.inter states).members ↔ ρ ∈ ((ev.truth f).inter states).members := by
  obtain ⟨yes, no⟩ := assures.sure needed f keyed rfl ρ foregone
  rw [Region.members_inter, Region.members_inter]
  exact and_congr_left fun here => ⟨yes, fun holds => (all here).resolve_right fun other => no other holds⟩

theorem recall_tells {f : Formula} (remembers : ev.remembers = true) (keyed : f.Keyed keys.texts) {compute : Region → Eval Region}
    (tells : ∀ states, ev.sys.StateSet states → Meets (ev.Assured keys) must (compute states) (ev.Answered keys f states)) {states : Region}
    (known : ev.sys.StateSet states) : Meets (ev.Assured keys) must (ev.recallAnswer f.text compute states) (ev.Answered keys f states) := by
  unfold recallAnswer
  refine meets_get fun m kept => ?_
  have assures := kept.find remembers f.text
  dsimp only
  generalize (m.answers.find? f.text).getD {} = answer at assures ⊢
  refine meets_bind (meets_modify fun n other => other.touch f.text) fun _ _ => ?_
  have remainingKnown : ev.sys.StateSet (states.diff (answer.yes.union answer.no)) :=
    known.diff (assures.yes.union assures.no).reads
  split
  · rename_i none
    have all : states.members ⊆ answer.yes.members ∪ answer.no.members := fun ρ here => by
      by_contra unknown
      have left : ρ ∈ (states.diff (answer.yes.union answer.no)).members := by
        rw [Region.members_diff, Region.members_union]
        exact ⟨here, unknown⟩
      exact Set.notMem_empty ρ (Region.is_empty_members.mp none ▸ left)
    exact meets_bind (meets_count assured_lasting _ _) fun _ _ => meets_pure
      ⟨⟨known.within assures.yes.reads, fun trusts => assures.answer keyed trusts all⟩, fun needed ρ => assures.answer_foregone keyed needed all⟩
  · refine meets_bind (meets_count assured_lasting _ _) fun _ _ => meets_bind (tells _ remainingKnown) fun sat found => ?_
    have more := assures.more keyed remainingKnown found
    have all : states.members ⊆ (answer.yes.union sat).members ∪
        (answer.no.union ((states.diff (answer.yes.union answer.no)).diff sat)).members := fun ρ here => by
      simp only [Region.members_union, Region.members_diff]
      by_cases before : ρ ∈ answer.yes.members ∪ answer.no.members
      · exact before.imp .inl .inl
      · by_cases now : ρ ∈ sat.members
        · exact .inl (.inr now)
        · exact .inr (.inr ⟨⟨here, before⟩, now⟩)
    exact meets_bind (meets_modify fun n other => other.store more _) fun _ _ => meets_pure
      ⟨⟨known.within more.yes.reads, fun trusts => more.answer keyed trusts all⟩, fun needed ρ => more.answer_foregone keyed needed all⟩

end Evaluator

end Coalition
