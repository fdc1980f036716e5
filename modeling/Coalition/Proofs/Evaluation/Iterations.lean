import Coalition.Proofs.Evaluation.FullObservation
import Coalition.Proofs.Evaluation.Performed

-- The iterations that whole evaluations count are the applications in the loops of planned fixpoints.

set_option autoImplicit false

namespace Coalition

open Eval

namespace Evaluator

variable {ev : Evaluator} {base : Counters} {x y : Eval Region}

section

variable {post other : Region → Prop} (first : ev.Logs base x post) (second : ev.Logs base y other)

include first

theorem logs_negate : ev.Logs base (ev.negate x) fun _ => True := guards_bind first fun _ _ => guards_pure trivial

include second

theorem logs_both : ev.Logs base (both x y) fun _ => True :=
  guards_bind first fun _ _ => guards_bind second fun _ _ => guards_pure trivial

theorem logs_either : ev.Logs base (either x y) fun _ => True :=
  guards_bind first fun _ _ => guards_bind second fun _ _ => guards_pure trivial

theorem logs_equally : ev.Logs base (ev.equally x y) fun _ => True :=
  guards_bind first fun _ _ => guards_bind second fun _ _ => guards_pure trivial

end

section

variable (wf : ev.sys.WellFormed) (first : ev.Logs base x ev.Operand) (second : ev.Logs base y ev.Operand)

theorem logs_some_always (first : ev.Logs base x ev.Operand) : ev.Logs base (ev.someAlways x) fun _ => True :=
  guards_bind first fun _ operand => logs_performed (.always operand)

include wf

theorem logs_some_next {post : Region → Prop} (first : ev.Logs base x post) : ev.Logs base (ev.someNext x) fun _ => True :=
  guards_bind first fun _ _ => guards_bind (logs_fair_states wf) fun _ _ => guards_pure trivial

include first

include second in
theorem logs_some_until : ev.Logs base (ev.someUntil x y) fun _ => True :=
  guards_bind first fun _ left => guards_bind second fun _ right => guards_bind (logs_fair_states wf) fun _ paths =>
    logs_performed (.until paths left right)

omit first in
theorem logs_possible {t : Team} {names : List String} (named : ev.sys.teamOf names = .ok t) (sharing : Sharing) {states : Region}
    (operand : ev.Operand states) : ev.Logs base (ev.possible sharing t states) fun _ => True := by
  have fairStates := @logs_fair_states ev base wf
  have chain : ∀ fair : Region, fair = .empty ∨ ev.CanGive ev.fairStates fair →
      ev.Logs base (counted (ev.sys.possibleByChain fair t states)) fun _ => True := fun _ paths =>
    logs_performed (.chain named paths operand)
  unfold Evaluator.possible
  cases sharing with
  | distributed => exact guards_bind fairStates fun _ _ => guards_pure trivial
  | everyone => exact guards_ite (fun _ => guards_pure trivial) fun _ => guards_bind fairStates fun _ _ => guards_pure trivial
  | common =>
      exact guards_ite (fun _ => guards_bind (guards_pure rfl) fun fair none => chain fair (.inl none.symm)) fun _ =>
        guards_bind fairStates fun fair paths => chain fair (.inr paths)

theorem logs_possibly (names : List String) (sharing : Sharing) : ev.Logs base (ev.possibly sharing names x) fun _ => True :=
  guards_bind (logs_of_except fun _ found => found) fun _ named => guards_bind first fun _ operand => logs_possible wf named sharing operand

end

section

variable (wf : ev.sys.WellFormed) {f : Formula}

theorem logs_whole (logs : ev.Logs base (ev.everywhere f) fun _ => True) : ev.Logs base (ev.everywhere f) ev.Operand :=
  logs.given.mono fun _ found => .whole found.1

include wf

theorem logs_aim {aim : Aim} (aims : f.aim? = some aim) (direct : ev.usesDual aim.ability = false)
    (first : ev.Logs base (ev.everywhere aim.left) ev.Operand) (second : ev.Logs base (ev.everywhere aim.right) ev.Operand) :
    ev.Logs base (ev.everywhere f) fun _ => True := by
  rw [everywhere_aim aims direct]
  refine guards_bind (logs_of_except fun _ found => found) fun t named => guards_bind first fun left operand => ?_
  exact guards_bind second fun right other => logs_decide wf named operand other

theorem logs_built :
    Formula.Built ev.usesDual (fun f => ev.Logs base (ev.everywhere f) fun _ => True) fun f => ev.Logs base (ev.everywhere f) ev.Operand where
  forces := rfl
  whole := fun f p => logs_whole (by rwa [← everywhere_spelled f])
  constant := fun _ => guards_pure trivial
  atom := fun _ => logs_of_except fun _ _ => trivial
  not := fun _ p => logs_negate p
  and := fun _ _ p q => logs_both p q
  or := fun _ _ p q => logs_either p q
  iff := fun _ _ p q => logs_equally p q
  next := fun _ p => logs_some_next wf p
  always := fun _ p => logs_some_always p
  strong := fun _ _ p q => logs_some_until wf p q
  agent := fun name _ p => logs_possibly wf p [name] .distributed
  group := fun sharing names _ p => logs_possibly wf p names sharing
  aims := fun _ _ aims direct p q => logs_aim wf aims direct p q

theorem logs_everywhere (f : Formula) : ev.Logs base (ev.everywhere f) ev.Operand := (logs_built wf).all f

end

end Evaluator

structure Operands.Logged (o : Operands) (ev : Evaluator) (base : Counters) : Prop where
  left : ∀ states, ev.sys.StateSet states → ev.Logs base (o.left states) ev.Operand
  right : ∀ states, ev.sys.StateSet states → ev.Logs base (o.right states) ev.Operand

theorem Operands.Logged.on {o : Operands} {ev : Evaluator} {base : Counters} (logged : o.Logged ev base) {states : Region}
    (known : ev.sys.StateSet states) : ev.Logs base (o.on states) fun goal => ev.Operand goal.left ∧ ev.Operand goal.right := by
  have rest : ∀ left, ev.Operand left → ev.Logs base (o.right states >>= fun right => pure (⟨o.kind, left, right⟩ : Goal))
      fun goal => ev.Operand goal.left ∧ ev.Operand goal.right := fun left operand =>
    guards_bind (logged.right states known) fun right other => guards_pure ⟨operand, other⟩
  unfold Operands.on
  dsimp only
  split
  · exact rest .empty .none
  · exact guards_bind (logged.left states known) rest

namespace Search

open Evaluator

variable {s : Search} {base : Counters} (wf : s.ev.sys.WellFormed) (playing : s.ev.Playing s.team s.protocol)
  (logged : s.operands.Logged s.ev base)

include wf playing logged

theorem logs_winning {strategy source : Region} (arises : s.ev.Arises s.team s.protocol strategy) (known : s.ev.sys.StateSet source) :
    s.ev.Logs base (s.winning strategy source) (s.ev.Arises s.team s.protocol) := by
  have played := playing.moves wf arises
  refine guards_bind (logged.on (asked_state_set wf played known _)) fun goal operands => ?_
  refine (logs_winning_moves playing operands.1 operands.2 arises).mono fun r same => same ▸ ?_
  exact .won arises (operands.1.state_set wf) (operands.2.state_set wf)

theorem logs_try_all {round closed : Region} (roundKnown : s.ev.sys.StateSet round) (closedKnown : s.ev.sys.StateSet closed) (size : Nat)
    (e : Enumeration Region) (each : ∀ strategy ∈ e.items, s.ev.Arises s.team s.protocol strategy) {remaining won : Region}
    (remainingKnown : s.ev.sys.StateSet remaining) (wonKnown : s.ev.sys.StateSet won) :
    s.ev.Logs base (s.tryAll round closed size e remaining won) fun p => s.ev.sys.StateSet p.remaining ∧ s.ev.sys.StateSet p.won := by
  induction e generalizing remaining won with
  | done => exact guards_pure ⟨remainingKnown, wonKnown⟩
  | fail error => exact guards_throw trivial
  | item strategy tail ih =>
      rw [try_all_item]
      refine guards_bind (logs_count _ _ (by decide)) fun _ _ =>
        guards_bind (logs_winning wf playing logged (each strategy List.mem_cons_self) closedKnown) fun moves found => ?_
      have nowKnown := now_state_set wf wonKnown roundKnown (playing.moves wf found)
      have leaves := @turn_leaves s round remaining won _ size remainingKnown nowKnown
      dsimp only
      generalize won.union ((s.splitter.surelyWinning (moves.hide s.ev.sys.inputBits)).inter round) = now at nowKnown leaves ⊢
      generalize s.turn round size remaining won now = turn at leaves ⊢
      cases turn with
      | on rest => exact ih () (fun U listed => each U (List.mem_cons_of_mem _ listed)) leaves nowKnown
      | stop rest => exact guards_bind (logs_count _ _ (by decide)) fun _ _ => guards_pure ⟨leaves, nowKnown⟩
      | fail => exact guards_throw trivial

section

variable {moves : Region} (arises : s.ev.Arises s.team s.protocol moves)

include arises

theorem logs_win_round {round : Region} (roundKnown : s.ev.sys.StateSet round) (fuel : Nat) {remaining won : Region}
    (remainingKnown : s.ev.sys.StateSet remaining) (wonKnown : s.ev.sys.StateSet won) :
    s.ev.Logs base (s.winRound moves round fuel remaining won) s.ev.sys.StateSet := by
  induction fuel generalizing remaining won with
  | zero => exact guards_throw trivial
  | succ fuel ih =>
      have closedKnown := close_state_set wf remainingKnown
      have tried := logs_try_all wf playing logged roundKnown closedKnown (s.ev.sys.countStates remaining)
        (s.strategies (s.close remaining) moves) (fun _ listed => .extended arises closedKnown listed) remainingKnown wonKnown
      unfold winRound
      refine guards_ite (fun _ => guards_pure wonKnown) fun _ => guards_bind tried fun p known => ?_
      exact guards_ite (fun _ => ih known.1 known.2) fun _ => guards_pure known.2

theorem logs_win_all (fuel : Nat) {all won : Region} (allKnown : s.ev.sys.StateSet all) (wonKnown : s.ev.sys.StateSet won) :
    s.ev.Logs base (s.winAll moves fuel all won) s.ev.sys.StateSet := by
  induction fuel generalizing all won with
  | zero => exact guards_throw trivial
  | succ fuel ih =>
      unfold winAll
      refine guards_ite (fun _ => guards_pure wonKnown) fun _ => ?_
      refine guards_bind (logs_of_except (separate_known wf allKnown)) fun round known => ?_
      refine guards_bind (logs_win_round wf playing logged arises known _ known wonKnown) fun now gained => ?_
      exact ih ((allKnown.diff known.reads).diff gained.reads) gained

end

theorem logs_run {states : Region} (known : s.ev.sys.StateSet states) : s.ev.Logs base (s.run states) s.ev.sys.StateSet := by
  have led := (wf.reach_from_spec known.moves).1
  have rest : ∀ moves : Region, s.ev.Arises s.team s.protocol moves → s.ev.Logs base
      (s.winAll moves (Nat.pow 2 s.ev.sys.stateBits.length + 1)
        (states.inter (s.splitter.surelyWinning (moves.hide s.ev.sys.inputBits))) .empty) s.ev.sys.StateSet := fun moves arises =>
    logs_win_all wf playing logged arises _
      (known.inter (s.splitter.surely_winning_state_set wf (playing.moves wf arises)).reads) (.empty _)
  unfold run
  exact guards_ite (fun _ => guards_bind (logs_winning wf playing logged (.near led) known) rest) fun _ =>
    guards_bind (guards_pure .whole) rest

end Search

namespace Evaluator

def Fills (ev : Evaluator) (base : Counters) (body : Region → Eval Region) : Prop :=
  ∀ states, ev.sys.StateSet states → ev.Logs base (body states) (ev.Among states)

def Supplies (ev : Evaluator) (base : Counters) (q : Query) : Prop :=
  ∀ states, ev.sys.StateSet states → ev.Logs base (q.run states) fun r => ev.Among states r ∧ ev.Operand r

variable {ev : Evaluator} {base : Counters} {body : Region → Eval Region} {p q : Query}

theorem Supplies.fills (supplies : ev.Supplies base q) : ev.Fills base q.run := fun states known =>
  (supplies states known).mono fun _ found => found.1

theorem Supplies.operand (supplies : ev.Supplies base q) {states : Region} (known : ev.sys.StateSet states) :
    ev.Logs base (q.run states) ev.Operand :=
  (supplies states known).mono fun _ found => found.2

theorem Fills.supplies {f : Formula} (fills : ev.Fills base (ev.query f).run) : ev.Supplies base (ev.query f) := fun states known =>
  (fills states known).given.mono fun _ found => ⟨found.2, .among known.moves found.1⟩

theorem logs_cut {states : Region} (known : ev.sys.StateSet states) {x : Eval Region} (keeps : ev.Keeps (fun _ => True) ev.sys.StateSet x)
    (logs : ev.Logs base x fun _ => True) : ev.Logs base (x >>= fun r => pure (r.inter states)) (ev.Among states) :=
  guards_bind logs.given fun _ found => guards_pure (.within known (found.1.holds keeps).reads)

theorem fills_recall (key : String) (fills : ev.Fills base body) : ev.Fills base (ev.recallAnswer key body) := by
  intro states known
  have recalls := kept_recalls ev.sys fun _ => True
  have answered : ∀ (m : Memory) (a : Answers), m.Kept ev.sys (fun _ => True) ∧ ev.Accounts base m → a.Sorted ev.sys →
      ({ m with answers := a } : Memory).Kept ev.sys (fun _ => True) ∧ ev.Accounts base { m with answers := a } :=
    fun m a kept sorted => ⟨(recalls.keeps m m a ⟨.refl m, kept.1⟩ sorted).2, kept.2.same rfl rfl⟩
  unfold recallAnswer
  refine settles_get fun m kept => ?_
  have sorted := kept.1.answers.find key
  generalize (m.answers.find? key).getD {} = answer at sorted ⊢
  dsimp only
  refine guards_bind (guards_modify fun k still => answered k _ still (still.1.answers.touch key)) fun _ _ => ?_
  have remaining := known.diff (sorted.yes.union sorted.no).reads
  have hit : ev.Logs base (count .cacheHits 1) fun _ => True := logs_count _ _ (by decide)
  refine guards_ite (fun _ => guards_bind hit fun _ _ => guards_pure (.within known sorted.yes.reads)) fun _ => ?_
  refine guards_bind (logs_count _ _ (by decide)) fun _ _ => guards_bind (fills _ remaining) fun sat found => ?_
  have more := sorted.more known found.known found.inside
  refine guards_bind (guards_modify fun k still => answered k _ still (still.1.answers.store _ key more)) fun _ _ => ?_
  exact guards_pure (.within known more.yes.reads)

theorem fills_ask (wf : ev.sys.WellFormed) (f : Formula) (fills : ev.Fills base body) : ev.Fills base (ev.ask f body).run := by
  intro states known
  have compute : ev.Fills base fun states => if ev.cancelled then throw .canceled else body states := fun states inside =>
    guards_ite (fun _ => guards_throw trivial) fun _ => fills states inside
  unfold ask
  dsimp only
  rw [known.states_of wf.laid]
  refine guards_ite (fun _ => guards_pure ⟨known, Set.Subset.refl _⟩) fun _ => ?_
  exact guards_ite (fun _ => fills_recall f.text compute states known) fun _ => compute states known

section

variable (first : ev.Fills base p.run) (second : ev.Fills base q.run)

include first

theorem fills_negate : ev.Fills base (Body.negate p) := fun states known =>
  guards_bind (first states known) fun _ found => guards_pure (.left known found.known.reads)

include second in
theorem fills_both : ev.Fills base (Body.both p q) := fun states known =>
  guards_bind (first states known) fun l found => guards_ite (fun _ => guards_pure found) fun _ =>
    (second l found.known).mono fun _ other => ⟨other.known, other.inside.trans found.inside⟩

include second in
theorem fills_either : ev.Fills base (Body.either p q) := fun states known =>
  guards_bind (first states known) fun _ found => guards_bind (second _ (known.diff found.known.reads)) fun _ other => guards_pure
    (.union found ⟨other.known, other.inside.trans (Among.left known found.known.reads).inside⟩)

include second in
theorem fills_equally : ev.Fills base (Body.equally p q) := fun states known =>
  guards_bind (first states known) fun _ found => guards_bind (second states known) fun _ other =>
    guards_pure (.within known (found.known.reads.iff other.known.reads))

end

section

variable (wf : ev.sys.WellFormed) {f g : Formula} (first : ev.Supplies base (ev.query f)) (second : ev.Supplies base (ev.query g))

include wf

theorem keeps_answers (f : Formula) {states : Region} (known : ev.sys.StateSet states) :
    ev.Keeps (fun _ => True) ev.sys.StateSet ((ev.query f).run states) :=
  (keeps_query wf f fun _ _ _ _ => trivial).agree known

include first

theorem fills_some_next : ev.Fills base (Body.someNext ev (ev.query f)) := fun _ known =>
  have next := wf.post_state_set known.moves
  logs_cut known (matches_some_next (keeps_twins wf) (keeps_answers wf f next)) (logs_some_next wf (first.operand next))

theorem fills_some_always : ev.Fills base (Body.someAlways ev (ev.query f)) := fun _ known =>
  have led := (wf.reach_from_spec known.moves).1
  logs_cut known (matches_some_always (keeps_twins wf) (keeps_answers wf f led)) (logs_some_always (first.operand led))

include second in
theorem fills_some_until : ev.Fills base (Body.someUntil ev (ev.query f) (ev.query g)) := fun _ known =>
  have led := (wf.reach_from_spec known.moves).1
  logs_cut known (matches_some_until (keeps_twins wf) (keeps_answers wf f led) (keeps_answers wf g led))
    (logs_some_until wf (first.operand led) (second.operand led))

theorem fills_possibly (sharing : Sharing) (names : List String) : ev.Fills base (Body.possibly ev sharing names (ev.query f)) := by
  intro states known
  unfold Body.possibly
  refine guards_bind (logs_of_except fun _ found => found) fun t named => ?_
  have of := (ev.sys.team_of_spec names t named).1
  have near : ev.Logs base (Body.related ev sharing t states) ev.sys.StateSet := by
    cases sharing with
    | distributed => exact guards_pure (System.equivalents_state_set known.moves)
    | everyone => exact guards_pure (System.WellFormed.equivalents_for_some_state_set known)
    | common => exact (logs_counted (.link named known)).mono fun _ same => same ▸ (wf.equivalents_by_chain_spec known of).1
  refine guards_bind near fun on close => guards_bind (first on close) fun sat found => ?_
  exact logs_cut known (matches_possible (keeps_twins wf) of sharing found.1.known) (logs_possible wf named sharing found.2)

include second in
theorem fills_achieve (formula : Formula) (ability : Ability) (names : List String) (kind : GoalKind) :
    ev.Fills base (Body.achieve ev formula ability names kind (ev.query f) (ev.query g)) := by
  intro states known
  have operands : Operands.Logged ⟨kind, (ev.query f).run, (ev.query g).run⟩ ev base :=
    ⟨fun _ inside => first.operand inside, fun _ inside => second.operand inside⟩
  unfold Body.achieve
  refine guards_bind (logs_of_except fun _ found => found) fun t found => ?_
  have named := (ev.sys.team_of_spec names t found).2
  refine guards_ite (fun _ => ?_) fun _ => ?_
  · refine guards_bind (operands.on (wf.reach_from_spec known.moves).1) fun goal cut => ?_
    have keeps := @keeps_decide ev (fun _ => True) t wf trivial named goal (cut.1.state_set wf) (cut.2.state_set wf) formula ability
    exact logs_cut known keeps (logs_decide wf found cut.1 cut.2)
  · have searched : ev.Logs base (deciding do
        let protocol ← Eval.protocol ev.sys t
        Search.run ⟨ev, t, protocol, ⟨kind, (ev.query f).run, (ev.query g).run⟩⟩ (Search.closeStates ev t states)) ev.sys.StateSet := by
      refine logs_deciding (guards_bind (logs_protocol found) fun protocol playing => ?_)
      let s : Search := ⟨ev, t, protocol, ⟨kind, (ev.query f).run, (ev.query g).run⟩⟩
      have closed := @Search.close_state_set s wf _ known
      exact @Search.logs_run s base wf playing operands _ closed
    exact guards_bind searched fun _ found => guards_pure (.within known found.reads)

end

section

variable (wf : ev.sys.WellFormed)

include wf

theorem supplies_built : Formula.Built ev.usesDual (fun f => ev.Fills base (ev.operation f)) fun f => ev.Supplies base (ev.query f) where
  forces := rfl
  whole := fun f p => Fills.supplies (by rw [query_operation f]; exact fills_ask wf f p)
  constant := fun value _ known => guards_pure (.within known (constant_state_set wf value).reads)
  atom := fun text _ known => logs_cut known (matches_of_except (wf.atom_spec text)) (logs_of_except fun _ _ => trivial)
  not := fun _ p => fills_negate p.fills
  and := fun _ _ p q => fills_both p.fills q.fills
  or := fun _ _ p q => fills_either p.fills q.fills
  iff := fun _ _ p q => fills_equally p.fills q.fills
  next := fun _ p => fills_some_next wf p
  always := fun _ p => fills_some_always wf p
  strong := fun _ _ p q => fills_some_until wf p q
  agent := fun name _ p => fills_possibly wf p .distributed [name]
  group := fun sharing names _ p => fills_possibly wf p sharing names
  aims := fun f aim aims _ p q => by
    rw [operation_aim aims]
    exact fills_achieve wf p q f aim.ability aim.names aim.kind

theorem supplies_query (f : Formula) : ev.Supplies base (ev.query f) := (supplies_built wf).all f

theorem logs_among (f : Formula) {states : Region} (clear : states.Reads ev.sys.moveBit) :
    ev.Logs base (ev.satisfyingAmong f states) fun _ => True := by
  rw [among_states wf f clear]
  exact (supplies_query wf f _ (ev.sys.states_of_state_set clear)).mono fun _ _ => trivial

theorem logs_on_all (f : Formula) : ev.Logs base (ev.onAll f) fun _ => True :=
  guards_ite (fun _ => guards_throw trivial) fun _ => (logs_everywhere wf f).mono fun _ _ => trivial

theorem leaves_accounts {q : Question} (clear : q.Clear ev.sys) {m : Memory} (kept : m.Kept ev.sys fun _ => True) :
    ev.Accounts m.counters (q.leaves ev m) := by
  have ran : ∀ {α : Type} {x : Eval α}, (ev.Logs m.counters x fun _ => True) →
      ev.Accounts m.counters (x.run m).2 := fun logs => by
    obtain ⟨result, n, ends, still, _⟩ := logs m ⟨kept, [], List.forall_mem_nil _, rfl, rfl⟩
    rw [ends]
    exact still.2
  cases q with
  | all f => exact ran (guards_ite (fun _ => logs_among wf f (Frame.StateSet.mask _).moves) fun _ => logs_on_all wf f)
  | among f states => exact ran (logs_among wf f clear)
  | initial f =>
      have answer : ∀ r : Region, ev.Logs m.counters (pure (ev.sys.init.subset r)) fun _ => True :=
        fun _ => guards_pure trivial
      refine ran (x := ev.check f) ?_
      unfold check
      exact guards_ite (fun _ => guards_bind (logs_among wf f wf.init.moves) fun r _ => answer r) fun _ =>
        guards_bind (logs_on_all wf f) fun r _ => answer r

end

/-- With any options and whatever was asked before, the loops that find what can be reached, those that chain what members cannot tell apart
and all loops of an evaluation are chains that end, each at the least fixpoint above its start or at the greatest one below it. The loops
inside of other loops are among them, for every region that the outer loop comes to, and no application of a function is left out. -/
theorem fixpoint_loops_settle {d : Description} (built : d.build = .ok ev.sys) :
    (∀ source : Region, source.Over ev.sys.space.size →
      ev.sys.reachFrom source = ((ev.sys.reachPlan source).eval ev.sys.space.size []).value ∧
        ∀ l ∈ (ev.sys.reachPlan source).loops ev.sys.space.size [], l.Settles ev.sys.space.size) ∧
    (∀ (t : Team) (states : Region), states.Over ev.sys.space.size →
      ev.sys.commonEquivalents t states = ((ev.sys.commonPlan t states).eval ev.sys.space.size []).value ∧
        ∀ l ∈ (ev.sys.commonPlan t states).loops ev.sys.space.size [], l.Settles ev.sys.space.size) ∧
    (∀ asked : List Question, (∀ q ∈ asked, q.Clear ev.sys) → ∀ q : Question, q.Clear ev.sys →
      ev.Accounts (ev.after asked).counters (q.leaves ev (ev.after asked))) ∧
    ∀ c p, ev.Performs c p → c = p.eval ev.sys.space.size [] ∧
      c.steps = ((p.loops ev.sys.space.size []).map fun l => (l.visited ev.sys.space.size).length).sum ∧
      ∀ l ∈ p.loops ev.sys.space.size [], l.Settles ev.sys.space.size := by
  have wf := d.build_well_formed _ built
  refine ⟨fun source spans => ⟨System.reach_from_plan, ?_⟩, fun t states spans => ⟨System.common_equivalents_plan, ?_⟩,
    fun asked clear q inside => ?_, fun c p performs => ?_⟩
  · exact Plan.loops_settle (wf.regular_reach spans) (List.forall_mem_nil _)
  · exact Plan.loops_settle (wf.regular_common spans) (List.forall_mem_nil _)
  · exact leaves_accounts wf inside (after_kept wf clear fun _ _ => trivial)
  · obtain ⟨same, regular⟩ := performs.planned wf
    exact ⟨same, same ▸ Plan.eval_steps p [], Plan.loops_settle regular (List.forall_mem_nil _)⟩

theorem fixpoint_loops_settle_busy_lamp : ∃ ev : Evaluator, busyLamp.build = .ok ev.sys ∧ ∃ performed : List (Counted Region × Plan),
    ((ev.satisfying (.strategic .canForce ["hand"] .eventually (.atom "on = yes"))).run {}).2.counters.performed =
      performed.map Prod.fst ∧
    (performed.map fun c => c.1.steps).sum = 10 ∧
    ∀ c ∈ performed, ∀ l ∈ c.2.loops ev.sys.space.size [], l.Settles ev.sys.space.size := by
  let lit : Formula := .strategic .canForce ["hand"] .eventually (.atom "on = yes")
  have works : (do
      let sys ← busyLamp.build
      return ((satisfying ⟨sys, { observability := .full }, false⟩ lit).run {}).2.counters.value .fixpointIterations).toOption =
    some 10 := by decide +kernel
  obtain ⟨sys, built, iterations⟩ := ok_of_bind (ok_of_to_option works)
  let ev : Evaluator := ⟨sys, { observability := .full }, false⟩
  obtain ⟨_, _, counts, settles⟩ := @fixpoint_loops_settle ev busyLamp built
  obtain ⟨performed, each, recorded, sum⟩ := counts [] (List.forall_mem_nil _) (.all lit) trivial
  refine ⟨ev, built, performed, recorded.trans (List.append_nil _), ?_, fun c listed => (settles c.1 c.2 (each c listed)).2.2⟩
  exact (Nat.zero_add _).symm.trans (sum.symm.trans (Except.ok.inj iterations))

end Evaluator

end Coalition
