import Coalition.Proofs.Evaluation.Guards

-- Evaluations on all states fail only with the errors of atoms and names, and of encodings that do not fit.

set_option autoImplicit false

namespace Coalition

def Formula.Faults (f : Formula) (sys : System) (blame : Error → Prop) : Prop :=
  f.Every (fun text => ∀ e, sys.atom text = .error e → blame e) (fun names => ∀ e, sys.teamOf names = .error e → blame e)
    fun names => ∀ e, sys.teamOf names = .error e → blame e

def Formula.Refusals (f : Formula) (ev : Evaluator) (blame : Error → Prop) : Prop :=
  f.Every (fun _ => True) (fun _ => True) fun names =>
    ∀ t, ev.sys.teamOf names = .ok t → ev.UsesCodes → ∀ e, Encoding.Refuses ev.sys t e → blame e

namespace Evaluator

open Eval

-- The computation gives a set of states if something holds, or fails with an error to blame.
abbrev Ensures (ev : Evaluator) (blame : Error → Prop) (x : Eval Region) (R : Prop) : Prop :=
  ev.Safe blame x fun r => ev.sys.StateSet r ∧ R

variable {ev : Evaluator} {blame : Error → Prop} {x y : Eval Region} {R S : Prop}

theorem Ensures.mono {R' : Prop} (ensures : ev.Ensures blame x R) (le : R → R') : ev.Ensures blame x R' :=
  Guards.mono ensures fun _ found => ⟨found.1, le found.2⟩

theorem Ensures.safe (ensures : ev.Ensures blame x R) : ev.Safe blame x ev.sys.StateSet := Guards.mono ensures fun _ found => found.1

theorem safe_team {names : List String} (faults : ∀ e, ev.sys.teamOf names = .error e → blame e) :
    ev.Safe blame (Eval.ofExcept (ev.sys.teamOf names)) fun t => ev.sys.teamOf names = .ok t :=
  guards_of_except (fun _ found => found) faults

section

variable (wf : ev.sys.WellFormed) (first : ev.Ensures blame x R) (second : ev.Ensures blame y S)

section

include first

theorem ensures_negate : ev.Ensures blame (ev.negate x) R :=
  guards_bind first fun _ found => guards_pure ⟨.outside found.1.reads, found.2⟩

include second

theorem ensures_both : ev.Ensures blame (both x y) (R ∧ S) :=
  guards_bind first fun _ found => guards_bind second fun _ other => guards_pure ⟨found.1.inter other.1.reads, found.2, other.2⟩

theorem ensures_either : ev.Ensures blame (either x y) (R ∧ S) :=
  guards_bind first fun _ found => guards_bind second fun _ other => guards_pure ⟨found.1.union other.1, found.2, other.2⟩

theorem ensures_equally : ev.Ensures blame (ev.equally x y) (R ∧ S) :=
  guards_bind first fun _ found => guards_bind second fun _ other =>
    guards_pure ⟨(Frame.StateSet.mask _).within (found.1.reads.iff other.1.reads), found.2, other.2⟩

end

include wf

theorem ensures_some_next (first : ev.Ensures blame x R) : ev.Ensures blame (ev.someNext x) R :=
  guards_bind first fun _ found => guards_bind (safe_fair_states wf) fun _ reads =>
    guards_pure ⟨(wf.some_next_spec reads found.1).1, found.2⟩

theorem ensures_some_always (first : ev.Ensures blame x R) : ev.Ensures blame (ev.someAlways x) R :=
  guards_bind first fun _ found => safe_counted ⟨(wf.some_always_spec found.1).1, found.2⟩

theorem ensures_some_until (first : ev.Ensures blame x R) (second : ev.Ensures blame y S) : ev.Ensures blame (ev.someUntil x y) (R ∧ S) :=
  guards_bind first fun _ found => guards_bind second fun _ other => guards_bind (safe_fair_states wf) fun _ reads =>
    safe_counted ⟨(wf.some_until_spec reads found.1.reads other.1).1, found.2, other.2⟩

theorem safe_possible {t : Team} (of : t.Of ev.sys) (sharing : Sharing) {states : Region} (known : ev.sys.StateSet states) :
    ev.Safe blame (ev.possible sharing t states) ev.sys.StateSet := by
  have fairStates := @safe_fair_states ev blame wf
  unfold Evaluator.possible
  cases sharing with
  | distributed => exact guards_bind fairStates fun fair reads => guards_pure (wf.possible_spec of reads known).1
  | everyone =>
      refine guards_ite (fun _ => guards_pure (.empty _)) fun _ => ?_
      exact guards_bind fairStates fun fair reads => guards_pure (wf.possible_for_some_spec of reads known).1
  | common =>
      have chain := fun (fair : Region) (reads : fair.Reads ev.sys.stateBit) =>
        @safe_counted ev blame _ _ (wf.possible_by_chain_spec of reads known).1
      exact guards_ite (fun _ => guards_bind (guards_pure (Region.reads_empty _)) chain) fun _ => guards_bind fairStates chain

section

variable {names : List String} (faults : ∀ e, ev.sys.teamOf names = .error e → blame e)

include faults first

theorem ensures_possibly (sharing : Sharing) : ev.Ensures blame (ev.possibly sharing names x) ((∃ t, ev.sys.teamOf names = .ok t) ∧ R) :=
  guards_bind (safe_team faults) fun t named => guards_bind first fun _ found =>
    (safe_possible wf (ev.sys.team_of_spec names t named).1 sharing found.1).mono fun _ known => ⟨known, ⟨t, named⟩, found.2⟩

end

end

section

variable (wf : ev.sys.WellFormed)

include wf

theorem ensures_aim {f : Formula} {aim : Aim} (aims : f.aim? = some aim) (direct : ev.usesDual aim.ability = false)
    (faults : ∀ e, ev.sys.teamOf aim.names = .error e → blame e)
    (refuses : ∀ t, ev.sys.teamOf aim.names = .ok t → ev.UsesCodes → ∀ e, Encoding.Refuses ev.sys t e → blame e)
    (first : ev.Ensures blame (ev.everywhere aim.left) R)
    (second : ev.Ensures blame (ev.everywhere aim.right) S) :
    ev.Ensures blame (ev.everywhere f) ((∃ t, ev.sys.teamOf aim.names = .ok t) ∧ R ∧ S) := by
  rw [everywhere_aim aims direct]
  refine guards_bind (safe_team faults) fun t found => guards_bind first fun left known => guards_bind second fun right other => ?_
  have named := (ev.sys.team_of_spec aim.names t found).2
  exact (safe_decide wf named known.1 other.1 f aim.ability (refuses t found)).mono fun _ inside => ⟨inside, ⟨t, found⟩, known.2, other.2⟩

abbrev EnsuresStates (ev : Evaluator) (blame : Error → Prop) (f : Formula) : Prop :=
  f.Faults ev.sys blame → f.Refusals ev blame → ev.Ensures blame (ev.everywhere f) (f.Resolves ev.sys)

theorem ensures_built : Formula.Built ev.usesDual (ev.EnsuresStates blame) (ev.EnsuresStates blame) where
  forces := rfl
  whole := fun f p faults refusals => by
    rw [← everywhere_spelled f]
    exact (p (f.every_spelled.mpr faults) (f.every_spelled.mpr refusals)).mono f.every_spelled.mp
  constant := fun value _ _ => guards_pure ⟨constant_state_set wf value, trivial⟩
  atom := fun text faults _ => guards_of_except (fun r found => ⟨wf.atom_spec text r found, r, found⟩) faults
  not := fun _ p faults refusals => ensures_negate (p faults refusals)
  and := fun _ _ p q faults refusals => ensures_both (p faults.1 refusals.1) (q faults.2 refusals.2)
  or := fun _ _ p q faults refusals => ensures_either (p faults.1 refusals.1) (q faults.2 refusals.2)
  iff := fun _ _ p q faults refusals => ensures_equally (p faults.1 refusals.1) (q faults.2 refusals.2)
  next := fun _ p faults refusals => ensures_some_next wf (p faults refusals)
  always := fun _ p faults refusals => ensures_some_always wf (p faults refusals)
  strong := fun _ _ p q faults refusals => ensures_some_until wf (p faults.1 refusals.1) (q faults.2 refusals.2)
  agent := fun _ _ p faults refusals => ensures_possibly wf (p faults.2 refusals.2) faults.1 .distributed
  group := fun sharing _ _ p faults refusals => ensures_possibly wf (p faults.2 refusals.2) faults.1 sharing
  aims := fun f aim aims direct p q faults refusals => by
    obtain ⟨own, left, right⟩ := (Formula.every_aim aims).mp faults
    obtain ⟨refuses, leftToo, rightToo⟩ := (Formula.every_aim aims).mp refusals
    exact (ensures_aim wf aims direct own refuses (p left leftToo) (q right rightToo)).mono fun found => (Formula.every_aim aims).mpr found

theorem ensures_everywhere (f : Formula) (faults : f.Faults ev.sys blame)
    (refuses : ev.UsesCodes → ∀ names ∈ f.coalitions, ∀ t, ev.sys.teamOf names = .ok t → ∀ e, Encoding.Refuses ev.sys t e → blame e) :
    ev.Ensures blame (ev.everywhere f) (f.Resolves ev.sys) :=
  (ensures_built wf).all f faults (f.every_coalition.mpr fun names coalition t found codes => refuses codes names coalition t found)

end

end Evaluator

end Coalition
