import Coalition.Proofs.Evaluation.SearchSafety

-- Requests fail only with the errors of atoms and names, and where the evaluation is cancelled.

set_option autoImplicit false

namespace Coalition

open Eval

namespace Evaluator

variable {ev : Evaluator} {blame : Error → Prop}

-- Requests for states are answered with some of these states, or with an error to blame.
def Replies (ev : Evaluator) (blame : Error → Prop) (run : Region → Eval Region) : Prop :=
  ∀ states, ev.sys.StateSet states → ev.Safe blame (run states) (ev.Among states)

theorem Replies.ensures {run : Region → Eval Region} (replies : ev.Replies blame run) {states : Region} (known : ev.sys.StateSet states) :
    ev.Ensures blame (run states) True :=
  (replies states known).mono fun _ found => ⟨found.known, trivial⟩

variable {body : Region → Eval Region} {p q : Query}

theorem safe_cut {states : Region} (known : ev.sys.StateSet states) {x : Eval Region} (safe : ev.Safe blame x ev.sys.StateSet) :
    ev.Safe blame (x >>= fun r => pure (r.inter states)) (ev.Among states) :=
  guards_bind safe fun _ found => guards_pure (.within known found.reads)

theorem safe_recall (key : String) (replies : ev.Replies blame body) : ev.Replies blame (ev.recallAnswer key body) := by
  intro states known
  have recalls := kept_recalls ev.sys fun _ => True
  have answered : ∀ (m : Memory) (a : Answers), m.Kept ev.sys (fun _ => True) → a.Sorted ev.sys →
      ({ m with answers := a } : Memory).Kept ev.sys fun _ => True := fun m a kept sorted => (recalls.keeps m m a ⟨.refl m, kept⟩ sorted).2
  unfold recallAnswer
  refine settles_get fun m kept => ?_
  have sorted := kept.answers.find key
  generalize (m.answers.find? key).getD {} = answer at sorted ⊢
  dsimp only
  refine guards_bind (guards_modify fun k still => answered k _ still (still.answers.touch key)) fun _ _ => ?_
  have remaining := known.diff (sorted.yes.union sorted.no).reads
  refine guards_ite (fun _ => guards_bind (safe_count _ _) fun _ _ => guards_pure (.within known sorted.yes.reads)) fun _ => ?_
  refine guards_bind (safe_count _ _) fun _ _ => guards_bind (replies _ remaining) fun sat found => ?_
  have more := sorted.more known found.known found.inside
  refine guards_bind (guards_modify fun k still => answered k _ still (still.answers.store _ key more)) fun _ _ => ?_
  exact guards_pure (.within known more.yes.reads)

theorem safe_ask (wf : ev.sys.WellFormed) (halts : ev.cancelled = true → blame .canceled) (f : Formula) (replies : ev.Replies blame body) :
    ev.Replies blame (ev.ask f body).run := by
  intro states known
  have compute : ev.Replies blame fun states => if ev.cancelled then throw .canceled else body states := fun states inside =>
    guards_ite (fun stopped => guards_throw (halts stopped)) fun _ => replies states inside
  unfold ask
  dsimp only
  rw [known.states_of wf.laid]
  refine guards_ite (fun _ => guards_pure ⟨known, Set.Subset.refl _⟩) fun _ => ?_
  exact guards_ite (fun _ => safe_recall f.text compute states known) fun _ => compute states known

section

variable (first : ev.Replies blame p.run) (second : ev.Replies blame q.run)

include first

theorem negate_replies : ev.Replies blame (Body.negate p) := fun states known =>
  guards_bind (first states known) fun _ found => guards_pure (.left known found.known.reads)

include second in
theorem both_replies : ev.Replies blame (Body.both p q) := fun states known =>
  guards_bind (first states known) fun l found => guards_ite (fun _ => guards_pure found) fun _ =>
    (second l found.known).mono fun _ other => ⟨other.known, other.inside.trans found.inside⟩

include second in
theorem either_replies : ev.Replies blame (Body.either p q) := fun states known =>
  guards_bind (first states known) fun _ found => guards_bind (second _ (known.diff found.known.reads)) fun _ other => guards_pure
    (.union found ⟨other.known, other.inside.trans (Among.left known found.known.reads).inside⟩)

include second in
theorem equally_replies : ev.Replies blame (Body.equally p q) := fun states known =>
  guards_bind (first states known) fun _ found => guards_bind (second states known) fun _ other =>
    guards_pure (.within known (found.known.reads.iff other.known.reads))

section

variable (wf : ev.sys.WellFormed)

include wf

theorem some_next_replies : ev.Replies blame (Body.someNext ev p) := fun _ known =>
  safe_cut known (ensures_some_next wf (first.ensures (wf.post_state_set known.moves))).safe

theorem some_always_replies : ev.Replies blame (Body.someAlways ev p) := fun _ known =>
  safe_cut known (ensures_some_always wf (first.ensures (wf.reach_from_spec known.moves).1)).safe

include second in
theorem some_until_replies : ev.Replies blame (Body.someUntil ev p q) := fun _ known =>
  have led := (wf.reach_from_spec known.moves).1
  safe_cut known (ensures_some_until wf (first.ensures led) (second.ensures led)).safe

variable {names : List String} (faults : ∀ e, ev.sys.teamOf names = .error e → blame e)

include faults

theorem possibly_replies (sharing : Sharing) : ev.Replies blame (Body.possibly ev sharing names p) := by
  intro states known
  unfold Body.possibly
  refine guards_bind (safe_team faults) fun t named => ?_
  have team := (ev.sys.team_of_spec names t named).1
  have near : ev.Safe blame (Body.related ev sharing t states) ev.sys.StateSet := by
    cases sharing with
    | distributed => exact guards_pure (System.equivalents_state_set known.moves)
    | everyone => exact guards_pure (System.WellFormed.equivalents_for_some_state_set known)
    | common => exact safe_counted (wf.equivalents_by_chain_spec known team).1
  refine guards_bind near fun on close => guards_bind (first on close) fun sat found => ?_
  exact safe_cut known (safe_possible wf team sharing found.known)

variable (reduces : ev.options.early = .threshold → ev.options.threshold.Reduces ∨ ev.options.threshold = .nan ∧ blame .noThreshold)

include second reduces in
theorem achieve_replies (formula : Formula) (ability : Ability) (kind : GoalKind) :
    ev.Replies blame (Body.achieve ev formula ability names kind p q) := by
  intro states known
  have operands : Operands.Safe ⟨kind, p.run, q.run⟩ ev blame :=
    ⟨fun on inside => (first on inside).mono fun _ found => found.known, fun on inside => (second on inside).mono fun _ found => found.known⟩
  unfold Body.achieve
  refine guards_bind (safe_team faults) fun t found => ?_
  obtain ⟨of, named⟩ := ev.sys.team_of_spec names t found
  refine guards_ite (fun whole => ?_) fun _ => ?_
  · refine guards_bind (operands.on (wf.reach_from_spec known.moves).1) fun goal cut => ?_
    have refuses : ev.UsesCodes → ∀ e, Encoding.Refuses ev.sys t e → blame e := by
      rintro ⟨limited, _⟩
      rw [whole] at limited
      cases limited
    exact safe_cut known (safe_decide wf named cut.1 cut.2 formula ability refuses)
  · refine safe_cut known (safe_deciding (guards_bind (safe_protocol named) fun protocol ⟨u, ofToo, same⟩ => ?_))
    have plays : Search.Plays ⟨ev, t, protocol, ⟨kind, p.run, q.run⟩⟩ := ⟨wf, of, same ▸ wf.protocol_played ofToo⟩
    exact Search.safe_run plays operands reduces (Search.close_state_set wf known)

end

end

section

variable (wf : ev.sys.WellFormed) (halts : ev.cancelled = true → blame .canceled)

include wf halts

theorem replies_built (reduces : ev.options.early = .threshold →
      ev.options.threshold.Reduces ∨ ev.options.threshold = .nan ∧ blame .noThreshold) :
    Formula.Built ev.usesDual (fun f => f.Faults ev.sys blame → ev.Replies blame (ev.operation f))
      fun f => f.Faults ev.sys blame → ev.Replies blame (ev.query f).run where
  forces := rfl
  whole := fun f p faults => by
    rw [query_operation f]
    exact safe_ask wf halts f (p (f.every_spelled.mpr faults))
  constant := fun value _ _ known => guards_pure (.within known (constant_state_set wf value).reads)
  atom := fun text faults _ known => safe_cut known (guards_of_except (wf.atom_spec text) faults)
  not := fun _ p faults => negate_replies (p faults)
  and := fun _ _ p q faults => both_replies (p faults.1) (q faults.2)
  or := fun _ _ p q faults => either_replies (p faults.1) (q faults.2)
  iff := fun _ _ p q faults => equally_replies (p faults.1) (q faults.2)
  next := fun _ p faults => some_next_replies (p faults) wf
  always := fun _ p faults => some_always_replies (p faults) wf
  strong := fun _ _ p q faults => some_until_replies (p faults.1) (q faults.2) wf
  agent := fun _ _ p faults => possibly_replies (p faults.2) wf faults.1 .distributed
  group := fun sharing _ _ p faults => possibly_replies (p faults.2) wf faults.1 sharing
  aims := fun f aim aims _ p q faults => by
    obtain ⟨own, left, right⟩ := (Formula.every_aim aims).mp faults
    rw [operation_aim aims]
    exact achieve_replies (p left) (q right) wf own reduces f aim.ability aim.kind

theorem query_replies (reduces : ev.options.early = .threshold →
      ev.options.threshold.Reduces ∨ ev.options.threshold = .nan ∧ blame .noThreshold)
    (f : Formula) (faults : f.Faults ev.sys blame) : ev.Replies blame (ev.query f).run :=
  (replies_built wf halts reduces).all f faults

end

end Evaluator

end Coalition
