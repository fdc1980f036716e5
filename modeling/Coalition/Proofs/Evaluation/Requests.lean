import Coalition.Proofs.Evaluation.OnStates

-- A request is answered by the region of the formula, cut to the requested states.

set_option autoImplicit false

namespace Coalition

open Eval

namespace Evaluator

variable {ev : Evaluator} {keys : Ledger} {must E E' : Prop} {coalition : List String → Prop} {f g : Formula} {p q : Query}

theorem tells_of_imp {run : Region → Eval Region} {X : Region} (le : E' → E) (tells : ev.Tells keys must E run X) :
    ev.Tells keys must E' run X := fun states known =>
  (tells states known).mono fun _ found => ⟨found.1, fun ex => found.2 (le ex)⟩

-- Formulas whose texts are keys if answers are remembered, whose names stand for something if a request has to be answered, and whose
-- coalitions are of some kind.
structure Asked (ev : Evaluator) (keys : Ledger) (must : Prop) (coalition : List String → Prop) (f : Formula) : Prop where
  keyed : ev.remembers = true → f.Keyed keys.texts
  resolves : must → f.Resolves ev.sys
  belongs : f.Every (fun _ => True) (fun _ => True) coalition

theorem Asked.of (asked : ev.Asked keys must coalition f)
    (inner : ∀ {atom : String → Prop} {group coalition : List String → Prop}, f.Every atom group coalition → g.Every atom group coalition) :
    ev.Asked keys must coalition g :=
  ⟨fun remembers => inner (asked.keyed remembers), fun needed => inner (asked.resolves needed), inner asked.belongs⟩

def Responds (ev : Evaluator) (keys : Ledger) (must : Prop) (f : Formula) : Prop :=
  ∀ states, ev.sys.StateSet states → Meets (ev.Assured keys) must (ev.operation f states) (ev.Answered keys f states)

theorem responds_of_tells (none : ∀ ρ, ρ ∉ ev.Foregone f) (tells : ev.Tells keys must (ev.Trusts f) (ev.operation f) (ev.truth f)) :
    ev.Responds keys must f := fun states known =>
  (tells states known).mono fun _ found => ⟨found, fun _ ρ foregone => absurd foregone (none ρ)⟩

theorem Answered.whole {states r : Region} (told : ev.Answered keys (f.spelled ev.usesDual) states r) : ev.Answered keys f states r := by
  obtain ⟨⟨known, right⟩, sure⟩ := told
  rw [truth_spelled] at right sure
  refine ⟨⟨known, fun trusts => right (f.every_spelled.mpr trusts)⟩, fun needed ρ foregone => sure needed ρ ?_⟩
  rwa [spelled_foregone foregone]

section

variable (wf : ev.sys.WellFormed) (ready : must → ev.cancelled = false)

include wf

theorem atom_tells (text : String) (resolves : must → ∃ r, ev.sys.atom text = .ok r) :
    ev.Tells keys must E (ev.operation (.atom text)) (ev.truth (.atom text)) := by
  have compiled : Meets (ev.Assured keys) must (Eval.ofExcept (ev.sys.atom text)) fun r => ev.sys.atom text = .ok r :=
    meets_of_except (fun _ found => found) resolves
  refine fun states known => meets_bind compiled fun r found => meets_pure ⟨(wf.atom_spec text r found).inter known.reads, fun _ => ?_⟩
  unfold truth
  rw [found]
  rfl

include ready

theorem answers_built (strategic : ∀ f aim, f.aim? = some aim → ev.usesDual aim.ability = false → ev.Asked keys must coalition f →
      (ev.query aim.left).Answers ev keys must aim.left → (ev.query aim.right).Answers ev keys must aim.right → ev.Responds keys must f) :
    Formula.Built ev.usesDual (fun f => ev.Asked keys must coalition f → ev.Responds keys must f)
      fun f => ev.Asked keys must coalition f → (ev.query f).Answers ev keys must f where
  forces := rfl
  whole := fun f p asked => by
    rw [query_operation f]
    exact ask_told wf ready asked.keyed fun states known => (p (asked.of f.every_spelled.mpr) states known).mono fun _ told => told.whole
  constant := fun value _ => responds_of_tells (fun _ foregone => foregone.2.2) fun _ known =>
    meets_pure ⟨(truth_state_set wf (.constant value)).inter known.reads, fun _ => rfl⟩
  atom := fun text asked => responds_of_tells (fun _ foregone => foregone.2.2) (atom_tells wf text asked.resolves)
  not := fun _ p asked => responds_of_tells (fun _ foregone => foregone.2.2) (negate_tells (p (asked.of id)).tells)
  and := fun _ _ p q asked => responds_of_tells (fun _ foregone => foregone.2.2)
    (both_tells (tells_of_imp And.left (p (asked.of And.left)).tells) (tells_of_imp And.right (q (asked.of And.right)).tells))
  or := fun _ _ p q asked => responds_of_tells (fun _ foregone => foregone.2.2)
    (either_tells (tells_of_imp And.left (p (asked.of And.left)).tells) (tells_of_imp And.right (q (asked.of And.right)).tells))
  iff := fun _ _ p q asked => responds_of_tells (fun _ foregone => foregone.2.2)
    (equally_tells (tells_of_imp And.left (p (asked.of And.left)).tells) (tells_of_imp And.right (q (asked.of And.right)).tells))
  next := fun f p asked => responds_of_tells (fun _ foregone => foregone.2.2)
    (some_next_tells wf (truth_state_set wf f) (p (asked.of id)).tells)
  always := fun f p asked => responds_of_tells (fun _ foregone => foregone.2.2)
    (some_always_tells wf (truth_state_set wf f) (p (asked.of id)).tells)
  strong := fun f g p q asked => responds_of_tells (fun _ foregone => foregone.2.2)
    (some_until_tells wf (truth_state_set wf f) (truth_state_set wf g) (tells_of_imp And.left (p (asked.of And.left)).tells)
      (tells_of_imp And.right (q (asked.of And.right)).tells))
  agent := fun _ f p asked => responds_of_tells (fun _ foregone => foregone.2.2) (possibly_tells wf (truth_state_set wf f)
    (tells_of_imp And.right (p (asked.of And.right)).tells) .distributed fun needed => (asked.resolves needed).1)
  group := fun sharing _ f p asked => responds_of_tells (fun _ foregone => foregone.2.2) (possibly_tells wf (truth_state_set wf f)
    (tells_of_imp And.right (p (asked.of And.right)).tells) sharing fun needed => (asked.resolves needed).1)
  aims := fun f aim aims direct p q asked => strategic f aim aims direct asked
    (p (asked.of fun each => ((Formula.every_aim aims).mp each).2.1)) (q (asked.of fun each => ((Formula.every_aim aims).mp each).2.2))

end

structure Fits (ev : Evaluator) (teams : Team → Prop) (must : Prop) (f : Formula) : Prop where
  plain : ev.remembers = true → f.Plain
  resolves : must → f.Resolves ev.sys
  belongs : ∀ names ∈ f.coalitions, ∀ t, ev.sys.teamOf names = .ok t → teams t

section

variable {teams : Team → Prop} {certain : Prop} (wf : ev.sys.WellFormed) (ready : must → ev.cancelled = false)
  (group : ev.options.observability = .limited → ev.options.semantics = .group) (apart : KeyedApart teams)
  (reduces : ev.options.observability = .limited → must → ev.options.early = .threshold → ev.options.threshold.Reduces)

include wf group apart reduces

theorem achieve_responds {aim : Aim} (aims : f.aim? = some aim) (direct : ev.usesDual aim.ability = false)
    (named : must → ∃ t, ev.sys.teamOf aim.names = .ok t) (belongs : ∀ t, ev.sys.teamOf aim.names = .ok t → teams t)
    (first : (ev.query aim.left).Answers ev (.plain teams certain) must aim.left)
    (second : (ev.query aim.right).Answers ev (.plain teams certain) must aim.right) : ev.Responds (.plain teams certain) must f := by
  have left := truth_state_set wf aim.left
  have right := truth_state_set wf aim.right
  have trusts : ev.Trusts f → _ := (Formula.every_aim aims).mp
  have none : aim.kind = .next → ev.truth aim.left = .empty := fun next => by
    cases f <;> try cases aims
    · rename_i modality body
      cases modality <;> first | rfl | cases next
    · rename_i kind _ _
      cases kind <;> cases next
  have tells := achieve_tells wf group apart reduces named belongs f aim.ability aim.kind (fun trusted => (trusts trusted).1) left right
    (fun _ => tells_of_imp (fun trusted => (trusts trusted).2.1) first.tells) none
    (tells_of_imp (fun trusted => (trusts trusted).2.2) second.tells)
  intro states known
  unfold Answered
  rw [operation_aim aims, truth_aim aims direct]
  by_cases some : (ev.Foregone f).Nonempty
  · obtain ⟨_, foregone⟩ := some
    obtain ⟨limited, free, _, strong, trusted, _⟩ := (mem_foregone aims).mp foregone
    rw [strong] at tells ⊢
    refine (tells states known).and ((achieve_tells_known wf group apart reduces named belongs f aim.ability limited free left right
      first.tells (tells_of_imp (fun _ => trusted) second.tells) states known).mono fun r found _ ρ member => ?_)
    exact found ρ ((mem_foregone aims).mp member).2.2.2.2.2
  · exact (tells states known).mono fun r found => ⟨found, fun _ ρ member => absurd ⟨ρ, member⟩ some⟩

include ready

theorem query_answers (f : Formula) (fits : ev.Fits teams must f) : (ev.query f).Answers ev (.plain teams certain) must f :=
  (@answers_built ev _ must (fun names => ∀ t, ev.sys.teamOf names = .ok t → teams t) wf ready fun _ _ aims direct asked =>
    achieve_responds wf group apart reduces aims direct (fun needed => ((Formula.every_aim aims).mp (asked.resolves needed)).1)
      ((Formula.every_aim aims).mp asked.belongs).1).all f ⟨fits.plain, fits.resolves, f.every_coalition.mpr fits.belongs⟩

end

end Evaluator

end Coalition
