import Coalition.Proofs.Evaluation.Strategies
import Coalition.Proofs.Evaluation.Symbolic

-- A code that prescribes a move which was filtered out leaves nothing to play, which costs no strategy that wins.

set_option autoImplicit false

namespace Coalition

namespace Encoding

variable {sys : System} {t : Team} {vars : List Variable} {rules : List Rule} {moves W : Set Valuation} {κ s : Valuation} {goal : Goal}

section

variable (wf : sys.WellFormed) (of : t.Of sys) (extra : sys.Extra vars) (inside : moves ⊆ (sys.protocolOf t).members)
  (governs : Governs sys t moves vars rules)

include wf of extra inside governs

theorem covers_playing (coded : Coded vars κ) (le : W ⊆ sys.obeying vars rules κ moves) :
    Arena.Covers ((sys.arena t (sys.protocolOf t)).on W)
      ((sys.arenaPlaying vars rules κ moves).on {u | ∃ ρ ∈ W, sys.stateOf ρ = u}) sys.stateOf := by
  constructor
  case top => exact fun ρ member => ⟨played_reached wf of inside (le member.2).1, ρ, member.2, rfl⟩
  case force =>
    intro Z X inW
    have lifts {u : Valuation} (there : u ∈ X) : ∃ σ ∈ (sys.protocolOf t).members ∩ W, sys.stateOf σ = u := by
      obtain ⟨_, σ, member, same⟩ := inW there
      exact ⟨σ, ⟨inside (le member).1, member⟩, same⟩
    ext ρ
    constructor
    · rintro ⟨here, member, forced⟩
      have reached := played_reached wf of inside (le here).1
      refine ⟨⟨member, here⟩, ⟨ρ, here, rfl⟩, ⟨reached, fun rule listed applies => ?_⟩, reached, fun τ trans state obeys => ?_⟩
      · exact ⟨ρ, (le here).1, rfl, (le here).2 rule listed applies⟩
      · exact (System.leads_atop wf.laid lifts).mp (forced τ trans state ((obeys_iff wf of extra governs coded (le here) reached state).mp obeys))
    · rintro ⟨⟨member, here⟩, _, _, reached, forced⟩
      refine ⟨here, member, fun τ trans state plays => (System.leads_atop wf.laid lifts).mpr ?_⟩
      exact forced τ trans state ((obeys_iff wf of extra governs coded (le here) reached state).mpr plays)
  case constraints => exact wf.fairness_states

variable (left : sys.StateSet goal.left) (right : sys.StateSet goal.right)

include left right

-- What can be won with some moves is won under a code of them.
theorem coded_of_winnable (winnable : sys.Winnable .group t (sys.protocolOf t) goal moves s) : ∃ κ, Coded vars κ ∧
    ∀ u, sys.Reachable u → t.Same s u →
      u ∈ (sys.arenaPlaying vars rules κ moves).wins goal.kind goal.left.members goal.right.members := by
  obtain ⟨U, le, agreeing, _, sure⟩ := winnable
  generalize own : sys.won t (sys.protocolOf t) goal U = W at sure
  have won : sys.won t (sys.protocolOf t) goal W = W := own ▸ System.won_won
  have smaller : W ⊆ U := own ▸ System.won_subset
  obtain ⟨κ, coded, chosen⟩ := governs.chosen W (smaller.trans le) (agreeing.mono smaller)
  have obeys : W ⊆ sys.obeying vars rules κ moves := by
    refine fun μ member => ⟨le (smaller member), fun rule listed applies => ?_⟩
    exact chosen μ member rule listed _ applies ((wf.same_state_of of μ).trans (same_under wf of extra _ κ))
      fun b code => (under_code _ _ code).symm
  refine ⟨κ, coded, fun u reached same => ?_⟩
  obtain ⟨ρ, member, rfl⟩ := sure t (List.mem_singleton.mpr rfl) u reached same
  have lies := (covers_playing wf of extra inside governs coded obeys).wins_atop goal.kind goal.left.members goal.right.members
  rw [Frame.preimage_state left.reads, Frame.preimage_state right.reads] at lies
  have above : ρ ∈ sys.won t (sys.protocolOf t) goal W := won.ge member
  rw [System.won, lies] at above
  exact Arena.wins_mono (Arena.on_le _ _) _ _ _ above.2

-- What is won under a code of some moves can be won, where the team may do the same in all states that look the same.
theorem winnable_of_coded (regular : sys.Regular t (sys.protocolOf t).members) (coded : Coded vars κ) (reached : sys.Reachable s)
    (wins : ∀ u, sys.Reachable u → t.Same s u →
      u ∈ (sys.arenaPlaying vars rules κ moves).wins goal.kind goal.left.members goal.right.members) :
    sys.Winnable .group t (sys.protocolOf t) goal (sys.protocolOf t).members s := by
  obtain ⟨V, above, within, agreeing, complete⟩ := wf.exists_complete of regular.alike
    (obeying_agrees wf of extra inside governs coded) (fun ρ member => inside member.1)
  obtain ⟨α, uniform, follows⟩ : ∃ α, sys.Uniform .group t α ∧ V ⊆ sys.following .group t α := wf.exists_policy of agreeing within
  have alive : ∀ u, sys.Reachable u → u ∈ (sys.playGraph .group t α).alive := by
    intro u reachedU
    obtain ⟨ρ, played, here⟩ := regular.lively u reachedU
    obtain ⟨σ, member, same⟩ := complete ρ played
    exact (wf.mem_alive of).mpr ⟨σ, follows member, same.trans here⟩
  -- whatever follows the policy in a state where something can be played obeys the code
  have le : Arena.Le (sys.arenaPlaying vars rules κ moves) (sys.playGraph .group t α).arena := by
    refine ⟨alive, ?_, rfl⟩
    rintro X u ⟨⟨_, live⟩, reachedU, forced⟩
    refine ⟨alive u reachedU, ?_⟩
    rintro _ ⟨τ, trans, here, followsTau, rfl⟩
    refine forced τ trans here fun rule listed applies => ?_
    rw [here] at applies
    obtain ⟨ρ, played, state, acts⟩ := live rule listed applies
    have obeys : ρ ∈ sys.obeying vars rules κ moves := by
      refine ⟨played, fun other otherListed otherApplies => ?_⟩
      rw [state] at otherApplies
      exact governs.unique rule listed other otherListed _ applies otherApplies ▸ acts
    have plays := (System.follows_iff (here.trans state.symm) (follows (above obeys)).2).mp followsTau
    obtain ⟨μ, _, spec, _⟩ := governs.plays rule listed
    exact (spec τ).mpr (plays.trans ((spec ρ).mp acts))
  refine (System.winnable_secures wf of left right).mpr ⟨α, uniform, ?_, fun w viewer u reachedU same => ?_⟩
  · exact (PlayGraph.mem_wins goal.kind).mp (Arena.wins_mono le _ _ _ (wins s reached (.refl t s)))
  · obtain rfl := List.mem_singleton.mp viewer
    exact (PlayGraph.mem_wins goal.kind).mp (Arena.wins_mono le _ _ _ (wins u reachedU same))

end

theorem finds_filtered (wf : sys.WellFormed) (of : t.Of sys) (regular : sys.Regular t (sys.protocolOf t).members)
    (left : sys.StateSet goal.left) (right : sys.StateSet goal.right) {kept : Region} (played : sys.PlayedSet kept)
    (inside : kept.members ⊆ (sys.protocolOf t).members) (counts : Counts sys t kept)
    (keeps : sys.won t (sys.protocolOf t) goal (sys.protocolOf t).members ⊆ kept.members) :
    Yields (ofMoves sys t (sys.equivalenceOf t) kept) fun e =>
      (∀ ρ, sys.Winnable .group t (sys.protocolOf t) goal (sys.protocolOf t).members (sys.stateOf ρ) →
        ρ ∈ (e.winning goal e.unfair.value).value.members) ∧
      (sys.fairness = [] ∨ sys.Shared t kept.members → ∀ ρ, ρ ∈ (e.winning goal e.unfair.value).value.members →
          sys.Winnable .group t (sys.protocolOf t) goal (sys.protocolOf t).members (sys.stateOf ρ)) := by
  intro e made
  obtain ⟨vars, rules, extra, prescribes, governs, rfl⟩ := of_moves_spec wf of _ played e made
  have mirrors := fun κ coded => @mirrors_under _ t _ _ κ _ (sys.equivalenceOf t) wf of extra played prescribes coded
  constructor
  · intro ρ winnable
    rw [mem_winning wf of extra played prescribes left right]
    obtain ⟨W, le, agreeing, sure⟩ := (System.winnable_filtered inside keeps).mpr winnable
    obtain ⟨μ, won, same⟩ := sure.1
    obtain ⟨κ, coded, wins⟩ := coded_of_winnable wf of extra inside (governs counts) left right ⟨W, le, agreeing, sure⟩
    refine ⟨same ▸ played_reached wf of inside (le (System.won_subset won)), κ, coded, fun u reached looks => ?_⟩
    have more := Arena.counting_mono (.refl (sys.arenaPlaying vars rules κ kept.members)) (unfair_above (mirrors κ coded))
    exact more _ _ _ (Arena.wins_eq_counting _ _ _ _ ▸ wins u reached looks)
  · intro whole ρ found
    rw [mem_winning wf of extra played prescribes left right] at found
    obtain ⟨reached, κ, coded, wins⟩ := found
    have same : view sys vars κ (encode sys (sys.equivalenceOf t) kept vars rules).unfair.value =
        (sys.arenaPlaying vars rules κ kept.members).unfair := by
      rcases whole with free | shared
      · have none : (sys.arenaPlaying vars rules κ kept.members).constraints = [] := by
          show sys.fairness.map _ = []
          rw [free]
          rfl
        rw [(unfair_spec (mirrors κ coded)).2, none, Arena.unfair_empty _ none]
        rfl
      · exact unfair_live wf of extra played prescribes (live_under wf of extra prescribes shared) coded
    rw [same, ← Arena.wins_eq_counting] at wins
    exact winnable_of_coded wf of extra inside (governs counts) left right regular coded reached wins

end Encoding

-- An encoding that is remembered is that of the moves, and its unfair states if they are known.
structure EncodingEntry.Encodes (entry : EncodingEntry) (sys : System) (t : Team) (moves : Region) : Prop where
  encoding : Encoding.ofMoves sys t (sys.equivalenceOf t) moves = .ok entry.encoding
  unfair : ∀ unfair ∈ entry.unfair, unfair = entry.encoding.unfair.value

-- What is remembered of a team is its own, and under a key the encoding of some moves.
structure Memory.KeepsUnder (m : Memory) (sys : System) (t : Team) (key : String) (moves : Region) : Prop where
  protocol : m.Faithful sys t
  relation : ∀ region, m.recalled.relations.lookup t.key = some region → region = sys.equivalenceOf t
  encoding : ∀ entry, m.encodings.lookup key = some entry → entry.Encodes sys t moves

theorem Memory.empty_keeps (sys : System) (t : Team) : ({} : Memory).Keeps sys t :=
  ⟨Memory.empty_faithful sys t, by simp, by simp⟩

theorem Memory.empty_keeps_under (sys : System) (t : Team) (key : String) (moves : Region) : ({} : Memory).KeepsUnder sys t key moves :=
  ⟨Memory.empty_faithful sys t, by simp, by simp⟩

namespace Evaluator

variable {ev : Evaluator} {t : Team} {m : Memory}

theorem ends_equivalence (named : ev.sys.team t.names = .ok t)
    (own : ∀ region, m.recalled.relations.lookup t.key = some region → region = ev.sys.equivalenceOf t) :
    Eval.Ends (Eval.equivalence ev.sys t) m fun region _ => region = ev.sys.equivalenceOf t := by
  have asked : ∃ recalled, m.recalled.equivalence ev.sys t.names = .ok (ev.sys.equivalenceOf t, recalled) := by
    unfold Recall.equivalence
    cases found : m.recalled.relations.lookup (teamKey t.names) with
    | some region => exact ⟨m.recalled, by rw [own region found]⟩
    | none =>
        simp only [named]
        exact ⟨_, rfl⟩
  obtain ⟨recalled, done⟩ := asked
  have ran : (Eval.ofExcept (m.recalled.equivalence ev.sys t.names)).run m = (.ok (ev.sys.equivalenceOf t, recalled), m) := by
    rw [done]
    rfl
  have whole := Eval.run_bind (f := fun entry => do
    modify fun m : Memory => { m with recalled := entry.2 }
    return entry.1) ran
  exact ⟨_, _, whole, rfl⟩

def winners (ev : Evaluator) (t : Team) (goal : Goal) : Region := ev.filtered t (ev.sys.protocolOf t) goal (ev.sys.protocolOf t)

theorem filtered_encoding_leaves (variant : ev.options.variant = .symbolicFiltered) (named : ev.sys.team t.names = .ok t)
    {formula : Formula} {ability : Ability} {goal : Goal} (keeps : m.KeepsUnder ev.sys t formula.text (ev.winners t goal)) :
    Eval.Leaves (ev.encodingFor ⟨formula, ability, t, goal⟩) m fun found _ =>
      (found = none ∧ (ev.winners t goal).isEmpty = true) ∨
        ∃ entry, found = some entry ∧ entry.Encodes ev.sys t (ev.winners t goal) := by
  unfold encodingFor encodingKey
  simp only [variant, if_true, decide_true, Bool.true_and]
  refine Eval.leaves_get ?_
  cases found : m.encodings.lookup formula.text with
  | some entry => exact (Eval.ends_pure (.inr ⟨entry, rfl, keeps.encoding entry found⟩)).leaves
  | none =>
      refine Eval.leaves_bind (Eval.ends_protocol named).leaves fun protocol n asked => ?_
      obtain ⟨rfl, rfl⟩ := asked
      rw [keeps.protocol.protocol_for]
      refine Eval.leaves_bind (gives_winning_moves _).leaves fun kept k filtered => ?_
      obtain ⟨rfl, alike⟩ := filtered
      change Eval.Leaves (if (ev.winners t goal).isEmpty then _ else _) k _
      cases none : (ev.winners t goal).isEmpty with
      | true => exact (Eval.ends_pure (.inl ⟨rfl, rfl⟩)).leaves
      | false =>
          have relation : ∀ region, k.recalled.relations.lookup t.key = some region → region = ev.sys.equivalenceOf t := by
            rw [← alike.recalled]
            unfold Memory.learned
            split <;> exact keeps.relation
          refine Eval.leaves_get (Eval.leaves_bind (ends_equivalence named relation).leaves fun equivalence j asked => ?_)
          subst asked
          cases encoded : Encoding.ofMoves ev.sys t (ev.sys.equivalenceOf t)
            (ev.filtered t (ev.sys.protocolOf t) goal (ev.sys.protocolOf t)) with
          | error e =>
              rintro r l ran
              obtain ⟨_, _, _, thrown⟩ := Eval.ok_of_run ran
              cases thrown
          | ok encoding =>
              rintro found l ran
              cases ran
              exact .inr ⟨_, rfl, encoded, by simp⟩

theorem filtered_symbolic_leaves (variant : ev.options.variant = .symbolicFiltered) (named : ev.sys.team t.names = .ok t)
    {formula : Formula} {ability : Ability} {goal : Goal} (keeps : m.KeepsUnder ev.sys t formula.text (ev.winners t goal)) :
    Eval.Leaves (ev.symbolic ⟨formula, ability, t, goal⟩) m fun r _ =>
      (r = .empty ∧ (ev.winners t goal).isEmpty = true) ∨
        ∃ e, Encoding.ofMoves ev.sys t (ev.sys.equivalenceOf t) (ev.winners t goal) = .ok e ∧
          r = (e.winning goal e.unfair.value).value := by
  unfold symbolic
  refine Eval.leaves_bind (filtered_encoding_leaves variant named keeps) fun found n asked => ?_
  obtain ⟨rfl, none⟩ | ⟨entry, rfl, encodes⟩ := asked
  · exact (Eval.ends_pure (.inl ⟨rfl, none⟩)).leaves
  · have unfair : Eval.Leaves (encodedUnfair (ev.encodingKey ⟨formula, ability, t, goal⟩) entry) n fun unfair _ =>
        unfair = entry.encoding.unfair.value := by
      unfold encodedUnfair
      cases remembered : entry.unfair with
      | some unfair => exact (Eval.ends_pure (encodes.unfair unfair remembered)).leaves
      | none =>
          refine Eval.leaves_bind (Eval.gives_counted _).leaves fun unfair k asked => ?_
          obtain ⟨rfl, _⟩ := asked
          rintro found l done
          cases done
          rfl
    refine Eval.leaves_bind unfair fun bad k asked => ?_
    subst asked
    intro r l done
    obtain ⟨rfl, _⟩ := (Eval.gives_counted (entry.encoding.winning goal entry.encoding.unfair.value)).run done
    exact .inr ⟨entry.encoding, encodes.encoding, rfl⟩

/-- Filtering the moves before they are encoded loses no state that the encoded protocol wins. It adds none either without fairness
constraints, or when the winning moves are the same in all states that look the same. Neither the protocol nor what is left of it may hold
so many actions that they count as none. -/
theorem filtered_encoding_agrees {d : Description} {ev filtering : Evaluator} (built : d.build = .ok ev.sys)
    (system : filtering.sys = ev.sys) (plain : ev.options.variant = .symbolic) (filters : filtering.options.variant = .symbolicFiltered)
    {names : List String} (coalition : ev.sys.team names = .ok t) (lively : ev.sys.Lively) (same : ev.sys.SameActions t)
    {formula : Formula} {ability : Ability} {goal : Goal} (left : ev.sys.StateSet goal.left) (right : ev.sys.StateSet goal.right)
    (counts : Encoding.Counts ev.sys t (ev.sys.protocolOf t)) (countsToo : Encoding.Counts ev.sys t (ev.winners t goal))
    {n : Memory} (keeps : m.Keeps ev.sys t) (keepsToo : n.KeepsUnder ev.sys t formula.text (ev.winners t goal))
    {r s : Region} {k l : Memory} (ran : (ev.symbolic ⟨formula, ability, t, goal⟩).run m = (.ok r, k))
    (ranToo : (filtering.symbolic ⟨formula, ability, t, goal⟩).run n = (.ok s, l)) :
    r.members ⊆ s.members ∧ (ev.sys.fairness = [] ∨ ev.sys.Shared t (ev.winners t goal).members → s = r) := by
  have wf := d.build_well_formed _ built
  obtain ⟨of, agents⟩ := System.team_spec coalition
  have named : ev.sys.team t.names = .ok t := agents.symm ▸ coalition
  have posed : ev.Posed t (ev.sys.protocolOf t) goal := ⟨wf, of, wf.protocol_played of, left, right⟩
  obtain ⟨_, members⟩ := filtered_spec posed (Set.Subset.refl _) (wf.protocol_reads t)
  have regular := wf.regular of lively same
  have apart : KeyedApart (· = t) := fun u v here there _ => here.trans there.symm
  obtain ⟨⟨e, made, rfl⟩, _, _⟩ :=
    symbolic_leaves apart rfl named (fun u here => here.symm ▸ keeps) ev rfl plain formula ability goal r k ran
  have wins := Encoding.finds_winnable wf of left right counts regular e made
  have winners : filtering.winners t goal = ev.winners t goal := by
    unfold Evaluator.winners Evaluator.filtered
    rw [system]
  have kept : n.KeepsUnder filtering.sys t formula.text (filtering.winners t goal) := by
    rw [system, winners]
    exact keepsToo
  obtain ⟨rfl, none⟩ | ⟨f, madeToo, rfl⟩ := filtered_symbolic_leaves filters (system.symm ▸ named) kept s l ranToo
  · -- where no move wins there is nothing to encode, and nothing can be won
    have nothing : (e.winning goal e.unfair.value).value = .empty := by
      refine Region.members_injective ?_
      rw [Region.members_empty]
      refine Set.eq_empty_of_forall_notMem fun ρ member => ?_
      obtain ⟨U, le, _, ⟨μ, won, _⟩, _⟩ := (wins ρ).mp member
      have inside : μ ∈ (ev.winners t goal).members := members.ge (System.won_mono le won)
      rw [← winners, Region.is_empty_members.mp none] at inside
      exact inside
    rw [nothing]
    exact ⟨Set.Subset.refl _, fun _ => rfl⟩
  · rw [system, winners] at madeToo
    have played := filtered_played posed (Set.Subset.refl _) (wf.protocol_reads t)
    obtain ⟨complete, sound⟩ :=
      Encoding.finds_filtered wf of regular left right played (members.le.trans System.won_protocol) countsToo members.ge f madeToo
    refine ⟨fun ρ member => complete ρ ((wins ρ).mp member), fun whole => Region.members_injective (Set.ext fun ρ => ?_)⟩
    exact ⟨fun member => (wins ρ).mpr (sound whole ρ member), fun member => complete ρ ((wins ρ).mp member)⟩

theorem filtered_encoding_agrees_lamp : ∃ (ev filtering : Evaluator) (t : Team) (r s : Region) (k l : Memory),
    lamp.build = .ok ev.sys ∧ filtering.sys = ev.sys ∧ ev.options.variant = .symbolic ∧ filtering.options.variant = .symbolicFiltered ∧
      ev.sys.team ["hand"] = .ok t ∧ ev.sys.Lively ∧ ev.sys.SameActions t ∧
      (ev.symbolic ⟨lampQuestion, .canForce, t, ⟨.next, .empty, ev.sys.statesOutside ev.sys.init⟩⟩).run {} = (.ok r, k) ∧
      (filtering.symbolic ⟨lampQuestion, .canForce, t, ⟨.next, .empty, ev.sys.statesOutside ev.sys.init⟩⟩).run {} = (.ok s, l) ∧
      r.members ⊆ s.members ∧ s = r := by
  have works : (do
      let sys ← lamp.build
      let t ← sys.team ["hand"]
      let task : Task := ⟨lampQuestion, .canForce, t, ⟨.next, .empty, sys.statesOutside sys.init⟩⟩
      let _ ← ((symbolic ⟨sys, { variant := .symbolic }, false⟩ task).run {}).1
      let _ ← ((symbolic ⟨sys, { variant := .symbolicFiltered }, false⟩ task).run {}).1
      return (sys.fairness.isEmpty && (sys.reachable.subset (sys.trans.hide (sys.nextBits ++ sys.inputBits)) &&
        Decidable.decide (∀ b ∈ sys.stateBits, ∃ a ∈ t.members, ∃ v ∈ a.observed, b ∈ v.bits)), t.actionBits.length)).toOption =
      some (true, 1) := by decide +kernel
  obtain ⟨sys, built, rest⟩ := ok_of_bind (ok_of_to_option works)
  obtain ⟨t, coalition, rest⟩ := ok_of_bind rest
  obtain ⟨r, ran, rest⟩ := ok_of_bind rest
  obtain ⟨s, ranToo, rest⟩ := ok_of_bind rest
  obtain ⟨all, few⟩ := Prod.ext_iff.mp (Except.ok.inj rest)
  obtain ⟨free, both⟩ := (Bool.and_eq_true _ _).mp all
  obtain ⟨inside, sees⟩ := (Bool.and_eq_true _ _).mp both
  have wf := lamp.build_well_formed sys built
  have lively := wf.lively inside
  have same := wf.same_actions (of_decide_eq_true sees)
  have counts : ∀ moves, Encoding.Counts sys t moves := fun _ _ _ => Space.counts_of_length _ (few.trans_lt (by decide))
  have ends : ∀ {x : Eval Region} {a : Region}, (x.run {}).1 = .ok a → ∃ k, x.run {} = (.ok a, k) := fun done => ⟨_, Prod.ext done rfl⟩
  obtain ⟨k, here⟩ := ends ran
  obtain ⟨l, there⟩ := ends ranToo
  obtain ⟨le, equal⟩ := @filtered_encoding_agrees t {} lamp ⟨sys, { variant := .symbolic }, false⟩
    ⟨sys, { variant := .symbolicFiltered }, false⟩ built rfl rfl rfl ["hand"] coalition lively same lampQuestion .canForce
    ⟨.next, .empty, sys.statesOutside sys.init⟩ (Frame.StateSet.empty _) (Frame.StateSet.outside wf.init.reads) (counts _) (counts _) {}
    (Memory.empty_keeps sys t) (Memory.empty_keeps_under sys t _ _) r s _ _ here there
  exact ⟨⟨sys, { variant := .symbolic }, false⟩, ⟨sys, { variant := .symbolicFiltered }, false⟩, t, r, s, k, l, built, rfl, rfl,
    rfl, coalition, lively, same, here, there, le, equal (.inl (List.isEmpty_iff.mp free))⟩

end Evaluator

end Coalition
