import Coalition.Proofs.Evaluation.Variants
import Coalition.Proofs.Strategy.Encoding

-- Encoded strategies agree with enumerated ones, as long as the teams of the formulas are told apart by the keys their protocols,
-- equivalences and encodings are remembered under.

set_option autoImplicit false

namespace Coalition

structure EncodingEntry.Of (entry : EncodingEntry) (sys : System) (t : Team) : Prop where
  encoding : Encoding.ofMoves sys t (sys.equivalenceOf t) (sys.protocolOf t) = .ok entry.encoding
  unfair : ∀ unfair ∈ entry.unfair, unfair = entry.encoding.unfair.value

structure Memory.Keeps (m : Memory) (sys : System) (t : Team) : Prop where
  protocol : m.Faithful sys t
  relation : ∀ region, m.recalled.relations.lookup t.key = some region → region = sys.equivalenceOf t
  encoding : ∀ entry, m.encodings.lookup t.key = some entry → entry.Of sys t

namespace Eval

variable {α β : Type} {x : Eval α} {f : α → Eval β} {m : Memory} {post before : α → Memory → Prop} {after : β → Memory → Prop}

def Leaves (x : Eval α) (m : Memory) (post : α → Memory → Prop) : Prop := ∀ a n, x.run m = (.ok a, n) → post a n

theorem Ends.leaves (ends : Ends x m post) : Leaves x m post := fun _ _ ran => ends.run ran

theorem leaves_bind (first : Leaves x m before) (next : ∀ a n, before a n → Leaves (f a) n after) : Leaves (x >>= f) m after := by
  intro b k ran
  obtain ⟨a, n, here, later⟩ := ok_of_run ran
  exact next a n (first a n here) b k later

theorem leaves_get {f : Memory → Eval β} (next : Leaves (f m) m after) : Leaves (get >>= f) m after := next

end Eval

-- Teams with keys of their own.
def KeyedApart (teams : Team → Prop) : Prop := ∀ t u, teams t → teams u → t.key = u.key → t = u

theorem lookup_filter_ne {β : Type} {entries : List (String × β)} {key other : String} (different : key ≠ other) :
    (entries.filter (·.1 != other)).lookup key = entries.lookup key := by
  induction entries with
  | nil => rfl
  | cons entry rest ih =>
      by_cases same : entry.1 = other
      · have apart : (key == entry.1) = false := by simpa [same] using different
        rw [List.filter_cons_of_neg (by simp [same]), ih, List.lookup_cons, apart]
      · rw [List.filter_cons_of_pos (by simpa using same), List.lookup_cons, List.lookup_cons, ih]

namespace Memory.Keeps

variable {m : Memory} {sys : System} {t : Team} {teams : Team → Prop}

theorem lookup_cons {β : Type} {entries : List (String × β)} {value : β} {P : Team → β → Prop} (apart : KeyedApart teams)
    (known : teams t) (own : P t value) (kept : ∀ u, teams u → ∀ b, entries.lookup u.key = some b → P u b) :
    ∀ u, teams u → ∀ b, ((t.key, value) :: entries).lookup u.key = some b → P u b := by
  intro u listed b found
  rw [List.lookup_cons] at found
  by_cases same : u.key = t.key
  · obtain rfl := apart u t listed known same
    simp only [beq_self_eq_true, Option.some.injEq] at found
    exact found ▸ own
  · have different : (u.key == t.key) = false := by simpa using same
    rw [different] at found
    exact kept u listed b found

end Memory.Keeps

namespace Evaluator

variable {sys : System} {t : Team} {teams : Team → Prop} {m : Memory}

section

variable (apart : KeyedApart teams) (known : teams t) (named : sys.team t.names = .ok t) (keeps : ∀ u, teams u → m.Keeps sys u)

include apart known named keeps

theorem ends_own_protocol : Eval.Ends (Eval.protocol sys t) m fun region n =>
    region = sys.protocolOf t ∧ (∀ u, teams u → n.Keeps sys u) ∧ n.fair = m.fair := by
  refine Eval.ends_mono (Eval.ends_protocol named) fun region n asked => ?_
  obtain ⟨rfl, rfl⟩ := asked
  refine ⟨(keeps t known).protocol.protocol_for, ?_⟩
  unfold Memory.learned
  split
  · exact ⟨keeps, rfl⟩
  · refine ⟨fun u listed => ⟨?_, (keeps u listed).relation, (keeps u listed).encoding⟩, rfl⟩
    exact Memory.Keeps.lookup_cons (P := fun u region => region = sys.protocolOf u) apart known rfl
      (fun u listed => (keeps u listed).protocol) u listed

theorem ends_own_equivalence : Eval.Ends (Eval.equivalence sys t) m fun region n =>
    region = sys.equivalenceOf t ∧ (∀ u, teams u → n.Keeps sys u) ∧ n.fair = m.fair := by
  have asked : ∃ relations, m.recalled.equivalence sys t.names = .ok (sys.equivalenceOf t, { m.recalled with relations }) ∧
      ∀ u, teams u → ∀ region, relations.lookup u.key = some region → region = sys.equivalenceOf u := by
    unfold Recall.equivalence
    cases found : m.recalled.relations.lookup (teamKey t.names) with
    | some region =>
        refine ⟨m.recalled.relations, ?_, fun u listed => (keeps u listed).relation⟩
        rw [(keeps t known).relation region found]
    | none =>
        refine ⟨(t.key, sys.equivalenceOf t) :: m.recalled.relations, ?_, Memory.Keeps.lookup_cons
          (P := fun u region => region = sys.equivalenceOf u) apart known rfl fun u listed => (keeps u listed).relation⟩
        simp only [named]
        rfl
  obtain ⟨relations, done, own⟩ := asked
  have ran : (Eval.ofExcept (m.recalled.equivalence sys t.names)).run m =
      (.ok (sys.equivalenceOf t, { m.recalled with relations }), m) := by
    rw [done]
    rfl
  have whole := Eval.run_bind (f := fun entry => do
    modify fun m : Memory => { m with recalled := entry.2 }
    return entry.1) ran
  exact ⟨_, _, whole, rfl, fun u listed => ⟨(keeps u listed).protocol, own u listed, (keeps u listed).encoding⟩, rfl⟩

theorem encoding_for_leaves (ev : Evaluator) (same : ev.sys = sys) (variant : ev.options.variant = .symbolic) (formula : Formula)
    (ability : Ability) (goal : Goal) : Eval.Leaves (ev.encodingFor ⟨formula, ability, t, goal⟩) m fun found n =>
      ∃ entry, found = some entry ∧ entry.Of sys t ∧ (∀ u, teams u → n.Keeps sys u) ∧ n.fair = m.fair := by
  subst same
  unfold encodingFor encodingKey
  simp only [variant, reduceCtorEq, if_false, decide_false, Bool.false_and, Bool.false_eq_true, pure_bind]
  refine Eval.leaves_get ?_
  cases found : m.encodings.lookup t.key with
  | some entry => exact (Eval.ends_pure ⟨entry, rfl, (keeps t known).encoding entry found, keeps, rfl⟩).leaves
  | none =>
      refine Eval.leaves_bind (ends_own_protocol apart known named keeps).leaves fun protocol n asked => ?_
      obtain ⟨rfl, kept, sameFair⟩ := asked
      refine Eval.leaves_get (Eval.leaves_bind (ends_own_equivalence apart known named kept).leaves fun equivalence k asked => ?_)
      obtain ⟨rfl, keptToo, sameFairToo⟩ := asked
      cases encoded : Encoding.ofMoves ev.sys t (ev.sys.equivalenceOf t) (ev.sys.protocolOf t) with
      | error e =>
          intro r j ran
          obtain ⟨_, _, _, thrown⟩ := Eval.ok_of_run ran
          cases thrown
      | ok encoding =>
          have own : EncodingEntry.Of ⟨encoding, none⟩ ev.sys t := ⟨encoded, by simp⟩
          rintro found j ran
          cases ran
          refine ⟨_, rfl, own, fun u listed => ⟨(keptToo u listed).protocol, (keptToo u listed).relation, ?_⟩, sameFairToo.trans sameFair⟩
          exact Memory.Keeps.lookup_cons (P := fun u (entry : EncodingEntry) => entry.Of ev.sys u) apart known own
            (fun u listed => (keptToo u listed).encoding) u listed

omit named in
theorem encoded_unfair_leaves {entry : EncodingEntry} (own : entry.Of sys t) : Eval.Leaves (encodedUnfair t.key entry) m fun unfair n =>
    unfair = entry.encoding.unfair.value ∧ (∀ u, teams u → n.Keeps sys u) ∧ n.fair = m.fair := by
  unfold encodedUnfair
  cases remembered : entry.unfair with
  | some unfair => exact (Eval.ends_pure ⟨own.unfair unfair remembered, keeps, rfl⟩).leaves
  | none =>
      obtain ⟨c, ran⟩ := Eval.counted_run entry.encoding.unfair m
      have counted : Eval.Ends (Eval.counted entry.encoding.unfair) m fun unfair n =>
          unfair = entry.encoding.unfair.value ∧ n = { m with counters := c } := ⟨_, _, ran, rfl, rfl⟩
      refine Eval.leaves_bind counted.leaves fun unfair n asked => ?_
      obtain ⟨rfl, rfl⟩ := asked
      rintro found j done
      cases done
      refine ⟨rfl, fun u listed => ⟨(keeps u listed).protocol, (keeps u listed).relation, ?_⟩, rfl⟩
      have ownToo : EncodingEntry.Of { entry with unfair := some entry.encoding.unfair.value } sys t := ⟨own.encoding, by simp⟩
      by_cases same : u.key = t.key
      · obtain rfl := apart u t listed known same
        intro later looked
        rw [List.lookup_cons, beq_self_eq_true] at looked
        cases looked
        exact ownToo
      · intro later looked
        have different : (u.key == t.key) = false := by simpa using same
        rw [List.lookup_cons, different, lookup_filter_ne same] at looked
        exact (keeps u listed).encoding later looked

theorem symbolic_leaves (ev : Evaluator) (same : ev.sys = sys) (variant : ev.options.variant = .symbolic) (formula : Formula)
    (ability : Ability) (goal : Goal) : Eval.Leaves (ev.symbolic ⟨formula, ability, t, goal⟩) m fun r n =>
      (∃ e, Encoding.ofMoves sys t (sys.equivalenceOf t) (sys.protocolOf t) = .ok e ∧ r = (e.winning goal e.unfair.value).value) ∧
        (∀ u, teams u → n.Keeps sys u) ∧ n.fair = m.fair := by
  unfold symbolic encodingKey
  simp only [variant, reduceCtorEq, if_false]
  refine Eval.leaves_bind (encoding_for_leaves apart known named keeps ev same variant formula ability goal) fun found n asked => ?_
  obtain ⟨entry, rfl, own, kept, sameFair⟩ := asked
  refine Eval.leaves_bind (encoded_unfair_leaves apart known kept own) fun unfair k asked => ?_
  obtain ⟨rfl, keptToo, sameFairToo⟩ := asked
  obtain ⟨c, ran⟩ := Eval.counted_run (entry.encoding.winning goal entry.encoding.unfair.value) k
  intro r j done
  rw [ran] at done
  cases done
  exact ⟨⟨entry.encoding, own.encoding, rfl⟩, fun u listed => ⟨(keptToo u listed).protocol, (keptToo u listed).relation,
    (keptToo u listed).encoding⟩, sameFairToo.trans sameFair⟩

end

end Evaluator

namespace System

variable {sys : System} {t : Team}

-- Some transition leads on from every reachable state.
def Lively (sys : System) : Prop := ∀ s, sys.Reachable s → ∃ u, sys.Step s u

-- The team may do the same in reachable states that look the same to it.
def SameActions (sys : System) (t : Team) : Prop :=
  ∀ s u, sys.Reachable s → sys.Reachable u → t.Same s u → ∀ ρ ∈ (sys.protocolOf t).members, sys.stateOf ρ = s →
    ∃ σ ∈ (sys.protocolOf t).members, sys.stateOf σ = u ∧ t.Plays σ ρ

theorem WellFormed.regular (wf : sys.WellFormed) (of : t.Of sys) (lively : sys.Lively)
    (same : sys.SameActions t) : sys.Regular t (sys.protocolOf t).members where
  lively s reached := by
    obtain ⟨u, τ, trans, here, _⟩ := lively s reached
    exact ⟨τ, (wf.mem_protocol of).mpr ⟨wf.trans_inputs trans, τ, trans, here.symm ▸ reached, rfl, .refl t τ⟩, here⟩
  alike ρ played u reached looks := by
    have reachedToo := wf.mem_reachable.mp (wf.protocol_inside of played).2
    exact same (sys.stateOf ρ) u reachedToo reached ((wf.same_state_of of ρ).symm.trans looks) ρ played rfl

theorem WellFormed.lively (wf : sys.WellFormed)
    (inside : sys.reachable.subset (sys.trans.hide (sys.nextBits ++ sys.inputBits)) = true) : sys.Lively := by
  intro s reached
  have here := Region.members_subset.mp inside (wf.mem_reachable.mpr ((wf.reachable_state reached).symm ▸ reached))
  obtain ⟨τ, trans, agree⟩ := Region.mem_hide.mp here
  refine ⟨sys.nextOf τ, τ, trans, ?_, rfl⟩
  rw [← wf.reachable_state reached]
  refine Frame.state_of_eq_iff.mpr fun b state => agree b fun listed => ?_
  rcases List.mem_append.mp listed with next | input
  · exact Frame.state_not_next wf.laid state next
  · exact (wf.laid.inputApart b input).1 state

theorem WellFormed.same_actions (wf : sys.WellFormed) (sees : ∀ b ∈ sys.stateBits, ∃ a ∈ t.members, ∃ v ∈ a.observed, b ∈ v.bits) :
    sys.SameActions t := by
  intro s u reached reachedToo looks ρ played here
  refine ⟨ρ, played, ?_, fun _ _ => rfl⟩
  rw [here, ← wf.reachable_state reached, ← wf.reachable_state reachedToo]
  refine Frame.state_of_eq_iff.mpr fun b state => ?_
  obtain ⟨a, member, v, seen, bit⟩ := sees b state
  exact looks a member v seen b bit

end System

def lampQuestion : Formula := .strategic .canForce ["hand"] .next (.atom "on = yes")

theorem lamp_lively : ∃ sys t, lamp.build = .ok sys ∧ sys.Lively ∧ sys.teamOf ["hand"] = .ok t ∧ sys.SameActions t ∧
    t.actionBits.length ≤ 44 ∧
    ∃ regions k, ([lampQuestion].mapM (Evaluator.satisfying ⟨sys, { variant := .symbolic }, false⟩)).run {} = (.ok regions, k) := by
  have works : (do
      let sys ← lamp.build
      let t ← sys.teamOf ["hand"]
      let _ ← (([lampQuestion].mapM (Evaluator.satisfying ⟨sys, { variant := .symbolic }, false⟩)).run {}).1
      return (sys.reachable.subset (sys.trans.hide (sys.nextBits ++ sys.inputBits)) &&
        decide (∀ b ∈ sys.stateBits, ∃ a ∈ t.members, ∃ v ∈ a.observed, b ∈ v.bits), t.actionBits.length)).toOption = some (true, 1) := by
    decide +kernel
  obtain ⟨sys, built, rest⟩ := ok_of_bind (ok_of_to_option works)
  obtain ⟨t, named, rest⟩ := ok_of_bind rest
  obtain ⟨regions, ran, rest⟩ := ok_of_bind rest
  obtain ⟨whole, few⟩ := Prod.ext_iff.mp (Except.ok.inj rest)
  obtain ⟨inside, sees⟩ := (Bool.and_eq_true _ _).mp whole
  have wf := lamp.build_well_formed sys built
  exact ⟨sys, t, built, wf.lively inside, named, wf.same_actions (of_decide_eq_true sees), few.trans_le (by decide), regions, _,
    Prod.ext ran rfl⟩

namespace Evaluator

structure Apart (sys : System) (teams : Team → Prop) (m n : Memory) : Prop where
  keeps : ∀ t, teams t → m.Keeps sys t
  faithful : ∀ t, teams t → n.Faithful sys t
  fair : ∀ fair ∈ m.fair, fair = sys.fairStates.value
  fairToo : ∀ fair ∈ n.fair, fair = sys.fairStates.value

theorem apart_linked (sys : System) (teams : Team → Prop) : sys.Linked (Apart sys teams) where
  counts _ _ _ _ known := ⟨fun t listed => ⟨(known.keeps t listed).protocol, (known.keeps t listed).relation, (known.keeps t listed).encoding⟩,
    known.faithful, known.fair, known.fairToo⟩
  fair _ _ _ _ known := ⟨fun t listed => ⟨(known.keeps t listed).protocol, (known.keeps t listed).relation, (known.keeps t listed).encoding⟩,
    known.faithful, by simp, by simp⟩
  left _ _ known := known.fair
  right _ _ known := known.fairToo

variable (ev : Evaluator) {teams : Team → Prop}

theorem symbolic_alike (wf : ev.sys.WellFormed) (limited : ev.options.observability = .limited) (group : ev.options.semantics = .group)
    (lively : ev.sys.Lively) (apart : KeyedApart teams) {names : List String}
    (good : ∀ t, ev.sys.teamOf names = .ok t → teams t ∧ ev.sys.SameActions t ∧ Encoding.Counts ev.sys t (ev.sys.protocolOf t)) :
    DecideAlike ev.sys (Apart ev.sys teams) (ev.choosing .symbolic).options (ev.choosing .splitFilter).options ev.cancelled
      ev.cancelled names := by
  intro t of named found formula ability goal left right
  obtain ⟨known, same, counts⟩ := good t found
  have encoded : (ev.choosing .symbolic).decide ⟨formula, ability, t, goal⟩ =
      Eval.deciding ((ev.choosing .symbolic).symbolic ⟨formula, ability, t, goal⟩) := by
    unfold Evaluator.decide
    rw [if_neg (by simp [choosing, limited])]
    rfl
  have enumerated : (ev.choosing .splitFilter).decide ⟨formula, ability, t, goal⟩ =
      Eval.deciding ((ev.choosing .splitFilter).splitFilter t goal) := by
    unfold Evaluator.decide
    rw [if_neg (by simp [choosing, limited])]
    rfl
  show Alike ev.sys (Apart ev.sys teams) ((ev.choosing .symbolic).decide _) ((ev.choosing .splitFilter).decide _)
  rw [encoded, enumerated]
  refine Eval.refines_deciding (apart_linked ev.sys teams) fun m n r k related ran => ?_
  obtain ⟨⟨e, made, rfl⟩, kept, sameFair⟩ :=
    symbolic_leaves apart known named related.keeps (ev.choosing .symbolic) rfl rfl formula ability goal r k ran
  have wins := Encoding.finds_winnable wf of left right counts (wf.regular of lively same) e made
  have own := (related.faithful t known).protocol_for
  have posed : (ev.choosing .splitFilter).Posed t (n.protocolFor ev.sys t) goal := ⟨wf, of, own.symm ▸ wf.protocol_played of, left, right⟩
  obtain ⟨s, l, there, winsToo, alike⟩ := @split_filter_solves (ev.choosing .splitFilter) t goal n named posed
  change (ev.choosing .splitFilter).Wins t (n.protocolFor ev.sys t) goal (n.protocolFor ev.sys t).members s at winsToo
  rw [own] at winsToo
  have winsHere : (ev.choosing .splitFilter).Wins t (ev.sys.protocolOf t) goal (ev.sys.protocolOf t).members
      (e.winning goal e.unfair.value).value := by
    intro ρ
    show _ ↔ ev.sys.Winnable ev.options.semantics t _ goal _ _
    rw [group]
    exact wins ρ
  obtain rfl := winsHere.unique winsToo
  refine ⟨winsHere.state_set ⟨wf, of, wf.protocol_played of, left, right⟩, l, there, kept, fun u listed => ?_, ?_, ?_⟩
  · intro region looked
    rw [← alike.recalled] at looked
    unfold Memory.learned at looked
    split at looked
    · exact related.faithful u listed region looked
    · exact Memory.Keeps.lookup_cons (P := fun u region => region = ev.sys.protocolOf u) apart known rfl
        (fun u listed => related.faithful u listed) u listed region looked
  · rw [sameFair]
    exact related.fair
  · rw [← alike.fair]
    unfold Memory.learned
    split <;> exact related.fairToo

/-- Encoded strategies give the answers of enumerated ones on any list of formulas whose coalitions may do the same wherever they see
the same, if every key of a coalition stands for one list of agents and no coalition has so many actions that they count as none. -/
theorem symbolic_agrees {d : Description} {ev : Evaluator} (built : d.build = .ok ev.sys) (limited : ev.options.observability = .limited)
    (group : ev.options.semantics = .group) (lively : ev.sys.Lively) {fs : List Formula}
    (same : ∀ f ∈ fs, ∀ names ∈ f.coalitions, ∀ t, ev.sys.teamOf names = .ok t → ev.sys.SameActions t)
    (counts : ∀ f ∈ fs, ∀ names ∈ f.coalitions, ∀ t, ev.sys.teamOf names = .ok t → Encoding.Counts ev.sys t (ev.sys.protocolOf t))
    (keys : ∀ f ∈ fs, ∀ g ∈ fs, ∀ first ∈ f.coalitions, ∀ second ∈ g.coalitions, ∀ t u, ev.sys.teamOf first = .ok t →
      ev.sys.teamOf second = .ok u → t.key = u.key → t.names = u.names) {regions : List Region} {k : Memory}
    (ran : (fs.mapM (ev.choosing .symbolic).satisfying).run {} = (.ok regions, k)) :
    ∃ l, (fs.mapM (ev.choosing .splitFilter).satisfying).run {} = (.ok regions, l) := by
  have wf := d.build_well_formed _ built
  let teams : Team → Prop := fun t => ∃ f ∈ fs, ∃ names ∈ f.coalitions, ev.sys.teamOf names = .ok t
  have apart : KeyedApart teams := by
    rintro t u ⟨f, listed, first, inF, known⟩ ⟨g, listedToo, second, inG, knownToo⟩ key
    have agents := keys f listed g listedToo first inF second inG t u known knownToo key
    have own := (ev.sys.team_of_spec first t known).2
    rw [agents, (ev.sys.team_of_spec second u knownToo).2] at own
    exact (Except.ok.inj own).symm
  have refines : Eval.Refines (Apart ev.sys teams) (fun as => ∀ a ∈ as, ev.sys.StateSet a) (fs.mapM (ev.choosing .symbolic).satisfying)
      (fs.mapM (ev.choosing .splitFilter).satisfying) := by
    refine Eval.refines_map_m fun f listed => ?_
    unfold satisfying
    rw [if_neg (by simp [choosing]), if_neg (by simp [choosing])]
    unfold onAll
    cases stopped : ev.cancelled with
    | true =>
        simp only [choosing, stopped, if_true]
        exact Eval.refines_throw .canceled
    | false =>
        have refines := refines_everywhere wf (apart_linked ev.sys teams) (o := (ev.choosing .symbolic).options)
          (u := (ev.choosing .splitFilter).options) rfl f fun names inF => symbolic_alike ev wf limited group lively apart
            fun t known => ⟨⟨f, listed, names, inF, known⟩, same f listed names inF t known,
              counts f listed names inF t known⟩
        simp only [choosing, stopped] at refines ⊢
        exact refines
  have empty : Apart ev.sys teams {} {} := ⟨fun t _ => ⟨Memory.empty_faithful ev.sys t, by simp, by simp⟩,
    fun t _ => Memory.empty_faithful ev.sys t, by simp, by simp⟩
  obtain ⟨_, l, there, _⟩ := refines {} {} regions k empty ran
  exact ⟨l, there⟩

theorem symbolic_agrees_lamp : ∃ (ev : Evaluator) (regions : List Region) (k l : Memory), lamp.build = .ok ev.sys ∧
    ev.options.observability = .limited ∧ ev.options.semantics = .group ∧ ev.sys.Lively ∧
    ([lampQuestion].mapM (ev.choosing .symbolic).satisfying).run {} = (.ok regions, k) ∧
    ([lampQuestion].mapM (ev.choosing .splitFilter).satisfying).run {} = (.ok regions, l) := by
  obtain ⟨sys, t, built, lively, named, same, few, regions, k, ran⟩ := lamp_lively
  have own : ∀ f ∈ [lampQuestion], ∀ names ∈ f.coalitions, ∀ u, sys.teamOf names = .ok u → u = t := by
    intro f listed names inF u found
    rw [List.mem_singleton.mp listed] at inF
    rw [List.mem_singleton.mp inF, named] at found
    exact (Except.ok.inj found).symm
  obtain ⟨l, there⟩ := @symbolic_agrees lamp ⟨sys, {}, false⟩ built rfl rfl lively [lampQuestion]
    (fun f listed names inF u found => own f listed names inF u found ▸ same)
    (fun f listed names inF u found _ _ => Space.counts_of_length _ (by rw [own f listed names inF u found]; omega))
    (fun f inFs g inGs first inF second inG u w found other _ => by
      rw [own f inFs first inF u found, own g inGs second inG w other]) regions k ran
  exact ⟨⟨sys, {}, false⟩, regions, k, l, built, rfl, rfl, lively, ran, there⟩

end Evaluator

end Coalition
