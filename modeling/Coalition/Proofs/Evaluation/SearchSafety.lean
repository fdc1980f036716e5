import Coalition.Proofs.Evaluation.Safety

-- States are picked only where there are some, starting over leaves fewer states to be won, and every round takes states away, whatever
-- strategies win.

set_option autoImplicit false

namespace Coalition

open Eval

namespace Evaluator

variable {ev : Evaluator} {blame : Error → Prop} {x : Eval Region} {how : Memory → Except Error Region → Memory → Prop}

-- From memories that evaluations leave, the computation ends in a certain way, in a set of states or an error to blame.
def EndsBy (ev : Evaluator) (blame : Error → Prop) (x : Eval Region) (how : Memory → Except Error Region → Memory → Prop) : Prop :=
  ∀ m, m.Kept ev.sys (fun _ => True) → ∃ result n, x.run m = (result, n) ∧ n.Kept ev.sys (fun _ => True) ∧
    Outcome blame ev.sys.StateSet result ∧ how m result n

theorem EndsBy.safe (ends : ev.EndsBy blame x how) : ev.Safe blame x ev.sys.StateSet := by
  intro m kept
  obtain ⟨result, n, ran, still, holds, _⟩ := ends m kept
  exact ⟨result, n, ran, still, holds⟩

end Evaluator

structure Operands.Safe (o : Operands) (ev : Evaluator) (blame : Error → Prop) : Prop where
  left : ∀ states, ev.sys.StateSet states → ev.Safe blame (o.left states) ev.sys.StateSet
  right : ∀ states, ev.sys.StateSet states → ev.Safe blame (o.right states) ev.sys.StateSet

theorem Operands.Safe.on {o : Operands} {ev : Evaluator} {blame : Error → Prop} (safe : o.Safe ev blame) {states : Region}
    (known : ev.sys.StateSet states) :
    ev.Safe blame (o.on states) fun goal => ev.sys.StateSet goal.left ∧ ev.sys.StateSet goal.right := by
  have rest : ∀ left, ev.sys.StateSet left → ev.Safe blame (o.right states >>= fun right => pure (⟨o.kind, left, right⟩ : Goal))
      fun goal => ev.sys.StateSet goal.left ∧ ev.sys.StateSet goal.right := fun left inside =>
    guards_bind (safe.right states known) fun right other => guards_pure ⟨inside, other⟩
  exact guards_ite (fun _ => rest .empty (.empty _)) fun _ => guards_bind (safe.left states known) rest

namespace Search

-- A walk from some states that takes in the next ones, up to the first time that it meets a wanted state.
inductive Walk (sys : System) (wanted : Region) : Region → Region → Prop where
  | meets {reached : Region} (found : reached.meets wanted = true) : Walk sys wanted reached reached
  | step {reached near : Region} (misses : reached.meets wanted = false)
      (grows : reached.members ⊂ (reached.union (sys.post reached)).members) (later : Walk sys wanted (reached.union (sys.post reached)) near) :
      Walk sys wanted reached near

-- The part of the states that a round is about.
inductive Separates (s : Search) (all : Region) : Region → Prop where
  | all (mode : s.ev.options.separation = .none) : Separates s all all
  | random {state : Region} (mode : s.ev.options.separation = .random) (picked : s.splitter.pickState all = .ok state) :
      Separates s all ((s.close state).inter all)
  | reach {near state : Region} (mode : s.ev.options.separation = .reach) (walk : Walk s.ev.sys all s.ev.sys.init near)
      (picked : s.splitter.pickState (near.inter all) = .ok state) : Separates s all ((s.close state).inter all)

def attempt (s : Search) (moves round remaining won : Region) : Eval Progress :=
  s.tryAll round (s.close remaining) (s.ev.sys.countStates remaining) (s.strategies (s.close remaining) moves) remaining won

-- How a round ends with some states remaining: none is left, the strategies have all been tried, an operand fails, or it starts over with
-- strictly fewer states.
inductive RoundEnds (s : Search) (moves round : Region) : Region → Region → Memory → Except Error Region → Memory → Prop where
  | over {remaining won : Region} {m : Memory} (none : remaining.isEmpty = true) : RoundEnds s moves round remaining won m (.ok won) m
  | fails {remaining won : Region} {m n : Memory} {e : Error} (some : remaining.isEmpty = false)
      (tried : (s.attempt moves round remaining won).run m = (.error e, n)) : RoundEnds s moves round remaining won m (.error e) n
  | exhausted {remaining won : Region} {m n : Memory} {p : Progress} (some : remaining.isEmpty = false)
      (tried : (s.attempt moves round remaining won).run m = (.ok p, n)) (through : p.stopped = false) :
      RoundEnds s moves round remaining won m (.ok p.won) n
  | again {remaining won : Region} {m n k : Memory} {p : Progress} {result : Except Error Region} (some : remaining.isEmpty = false)
      (tried : (s.attempt moves round remaining won).run m = (.ok p, n)) (stopped : p.stopped = true)
      (fewer : p.remaining.members ⊂ remaining.members) (later : RoundEnds s moves round p.remaining p.won n result k) :
      RoundEnds s moves round remaining won m result k

-- How the rounds end with some states that are not yet handled: each takes a part of them that is not empty.
inductive RoundsEnd (s : Search) (moves : Region) : Region → Region → Memory → Except Error Region → Memory → Prop where
  | over {all won : Region} {m : Memory} (none : all.isEmpty = true) : RoundsEnd s moves all won m (.ok won) m
  | fails {all round won : Region} {m n : Memory} {e : Error} (some : all.isEmpty = false) (separates : s.Separates all round)
      (part : round.members ⊆ all.members) (nonempty : round.members.Nonempty)
      (ends : s.RoundEnds moves round round won m (.error e) n) : RoundsEnd s moves all won m (.error e) n
  | next {all round won now : Region} {m n k : Memory} {result : Except Error Region} (some : all.isEmpty = false)
      (separates : s.Separates all round) (part : round.members ⊆ all.members) (nonempty : round.members.Nonempty)
      (ends : s.RoundEnds moves round round won m (.ok now) n) (later : RoundsEnd s moves ((all.diff round).diff now) now n result k) :
      RoundsEnd s moves all won m result k

def possible (s : Search) (moves : Region) : Region := s.splitter.surelyWinning (moves.hide s.ev.sys.inputBits)

inductive Ends (s : Search) (states : Region) : Memory → Except Error Region → Memory → Prop where
  | unfiltered {m n : Memory} {result : Except Error Region} (off : s.ev.options.filtering = false)
      (ends : s.RoundsEnd s.protocol (states.inter (s.possible s.protocol)) .empty m result n) : Ends s states m result n
  | fails {m n : Memory} {e : Error} (on : s.ev.options.filtering = true)
      (filtered : (s.winning (s.protocol.inter (s.ev.sys.reachFrom states)) states).run m = (.error e, n)) : Ends s states m (.error e) n
  | filtered {moves : Region} {m n k : Memory} {result : Except Error Region} (on : s.ev.options.filtering = true)
      (filtered : (s.winning (s.protocol.inter (s.ev.sys.reachFrom states)) states).run m = (.ok moves, n))
      (ends : s.RoundsEnd moves (states.inter (s.possible moves)) .empty n result k) : Ends s states m result k

variable {s : Search} {blame : Error → Prop}

section

variable {sys : System} (wf : sys.WellFormed)

include wf

theorem reachable_within {r : Region} (known : sys.StateSet r) (start : sys.init.members ⊆ r.members)
    (closed : (sys.post r).members ⊆ r.members) : sys.reachable.members ⊆ r.members := by
  intro ρ member
  obtain ⟨ι, initial, linked⟩ := wf.mem_reachable.mp member
  suffices all : ∀ u, Relation.ReflTransGen sys.Step (sys.stateOf ι) u → u ∈ r.members from
    (Frame.mem_state_of known.reads).mp (all _ linked)
  intro u linked
  induction linked with
  | refl => exact (Frame.mem_state_of known.reads).mpr (start initial)
  | @tail v w _ step ih =>
      have before : sys.stateOf v = v := by
        obtain ⟨τ, _, here, _⟩ := step
        rw [← here, Frame.state_of_state]
      have behind : sys.stateOf w = w := by
        obtain ⟨τ, _, _, there⟩ := step
        rw [← there, Frame.state_of_next wf.laid]
      exact closed ((wf.mem_post_states known.reads).mpr ⟨v, ih, by rw [before, behind]; exact step⟩)

theorem walk_meets {all : Region} (reached : all.members ⊆ sys.reachable.members) (some : all.members.Nonempty) (fuel : Nat) {r : Region}
    (known : sys.StateSet r) (start : sys.init.members ⊆ r.members)
    (enough : 2 ^ sys.stateBits.toFinset.card < fuel + r.weight sys.stateBits.toFinset) : Walk sys all r (reachUntil sys all fuel r) := by
  induction fuel generalizing r with
  | zero => exact absurd (Region.weight_bound sys.stateBits.toFinset r) (by omega)
  | succ fuel ih =>
      have nextKnown := known.union (wf.post_state_set known.moves)
      have more : r.members ⊆ (r.union (sys.post r)).members := Region.members_union _ _ ▸ Set.subset_union_left
      unfold reachUntil
      dsimp only
      split
      · exact .meets ‹_›
      · rename_i misses
        have grows : r ≠ r.union (sys.post r) := fun same => misses <| by
          have closed : (sys.post r).members ⊆ r.members := by
            conv_rhs => rw [same, Region.members_union]
            exact Set.subset_union_right
          obtain ⟨ρ, wanted⟩ := some
          exact Region.meets_members.mpr ⟨ρ, reachable_within wf known start closed (reached wanted), wanted⟩
        rw [if_neg (Ne.symm grows)]
        have less := Region.weight_strict nextKnown.reads_bits more grows known.reads_bits
        refine .step (Bool.eq_false_iff.mpr misses) (more.ssubset_of_ne fun same => grows (Region.members_injective same)) ?_
        exact ih nextKnown (start.trans more) (by omega)

end

theorem exists_separates (wf : s.ev.sys.WellFormed) (of : s.team.Of s.ev.sys) {all : Region} (known : s.ev.sys.StateSet all)
    (reached : all.members ⊆ s.ev.sys.reachable.members) (some : all.members.Nonempty) : ∃ round, s.separate all = .ok round ∧
      s.Separates all round ∧ s.ev.sys.StateSet round ∧ round.members ⊆ all.members ∧ round.members.Nonempty := by
  obtain ⟨round, separated, roundKnown, within, nonempty⟩ := separate_spec wf of known (fun _ => reached) some
  refine ⟨round, separated, ?_, roundKnown, within, nonempty⟩
  unfold separate at separated
  cases mode : s.ev.options.separation with
  | none =>
      rw [mode] at separated
      obtain rfl : all = round := Except.ok.inj separated
      exact .all mode
  | random =>
      rw [mode] at separated
      obtain ⟨state, picked, same⟩ := ok_of_bind separated
      obtain rfl : (s.close state).inter all = round := Except.ok.inj same
      exact .random mode picked
  | reach =>
      rw [mode] at separated
      obtain ⟨state, picked, same⟩ := ok_of_bind separated
      obtain rfl : (s.close state).inter all = round := Except.ok.inj same
      have card : s.ev.sys.stateBits.toFinset.card = s.ev.sys.stateBits.length := List.toFinset_card_of_nodup wf.laid.stateNodup
      refine .reach mode (walk_meets wf reached some _ wf.init (Set.Subset.refl _) ?_) picked
      rw [card]
      exact Nat.lt_add_right _ (Nat.lt_succ_self _)

-- What a round keeps as strategies are tried: what is to be won and not won remains, and starting over is worth it.
structure Going (s : Search) (round first : Region) (p : Progress) : Prop where
  remainingKnown : s.ev.sys.StateSet p.remaining
  wonKnown : s.ev.sys.StateSet p.won
  fewer : p.remaining.members ⊆ first.members
  covered : round.members ⊆ p.remaining.members ∪ p.won.members
  progress : p.stopped = true → p.remaining ≠ first

section

variable (plays : s.Plays) (safe : s.operands.Safe s.ev blame)

include plays safe

theorem safe_winning {strategy source : Region} (inside : strategy.members ⊆ s.protocol.members) (reads : strategy.Reads s.ev.sys.moveBit)
    (known : s.ev.sys.StateSet source) :
    s.ev.Safe blame (s.winning strategy source) fun r => s.ev.sys.PlayedSet r ∧ r.members ⊆ s.protocol.members := by
  refine guards_bind (safe.on (asked_state_set plays.system (plays.played.sub inside reads) known _)) fun goal cut => ?_
  have posed : s.ev.Posed s.team s.protocol goal := ⟨plays.system, plays.team, plays.played, cut.1, cut.2⟩
  exact Evaluator.safe_counted ⟨Evaluator.filtered_played posed inside reads,
    (Evaluator.filtered_spec posed inside reads).2.le.trans System.won_protocol⟩

section

variable (reduces : s.ev.options.early = .threshold → s.ev.options.threshold.Reduces ∨ s.ev.options.threshold = .nan ∧ blame .noThreshold)

include reduces

theorem safe_try_all {round closed first : Region} (roundKnown : s.ev.sys.StateSet round) (closedKnown : s.ev.sys.StateSet closed)
    (firstKnown : s.ev.sys.StateSet first) (some : first.members.Nonempty) (e : Enumeration Region) (ends : e.error? = none)
    (each : ∀ U ∈ e.items, (s.splitter).Partial s.protocol U) {remaining won : Region}
    (going : s.Going round first ⟨remaining, won, false⟩) :
    s.ev.Safe blame (s.tryAll round closed (s.ev.sys.countStates first) e remaining won) (s.Going round first) := by
  induction e generalizing remaining won with
  | fail error => cases ends
  | done => exact guards_pure going
  | item strategy tail ih =>
      obtain ⟨inside, reads, _⟩ := each strategy List.mem_cons_self
      rw [try_all_item]
      refine guards_bind (Evaluator.safe_count _ _) fun _ _ => ?_
      refine guards_bind (safe_winning plays safe inside reads closedKnown) fun moves found => ?_
      have nowKnown := now_state_set plays.system going.wonKnown roundKnown found.1
      have more : won.members ⊆ (won.union ((s.splitter.surelyWinning (moves.hide s.ev.sys.inputBits)).inter round)).members :=
        Region.members_union _ _ ▸ Set.subset_union_left
      have within : (won.union ((s.splitter.surelyWinning (moves.hide s.ev.sys.inputBits)).inter round)).members ⊆
          won.members ∪ round.members := by
        rw [Region.members_union, Region.members_inter]
        exact Set.union_subset_union_right _ Set.inter_subset_right
      dsimp only
      generalize won.union ((s.splitter.surelyWinning (moves.hide s.ev.sys.inputBits)).inter round) = now at nowKnown more within ⊢
      have fits := turn_fits plays.system going.remainingKnown nowKnown firstKnown some going.fewer going.covered more within
      generalize s.turn round (s.ev.sys.countStates first) remaining won now = turn at fits ⊢
      cases turn with
      | on rest =>
          refine ih () ends (fun U listed => each U (List.mem_cons_of_mem _ listed)) ?_
          exact ⟨fits.known, nowKnown, fits.fewer.trans going.fewer, fits.covered, fun stopped => absurd stopped Bool.false_ne_true⟩
      | stop rest =>
          obtain ⟨remains, different⟩ := fits
          refine guards_bind (Evaluator.safe_count _ _) fun _ _ => guards_pure ?_
          refine ⟨remains.known, nowKnown, remains.fewer.trans going.fewer, remains.covered, fun _ => different fun mode => ?_⟩
          exact (reduces mode).imp id And.left
      | fail =>
          obtain fits' | ⟨_, blamed⟩ := reduces fits.1
          · exact absurd fits' fits.2
          · exact guards_throw blamed

theorem round_ends {moves round : Region} (roundKnown : s.ev.sys.StateSet round) (inside : moves.members ⊆ s.protocol.members)
    (reads : moves.Reads s.ev.sys.moveBit) (fuel : Nat) {remaining won : Region} (remainingKnown : s.ev.sys.StateSet remaining)
    (wonKnown : s.ev.sys.StateSet won) (covered : round.members ⊆ remaining.members ∪ won.members)
    (enough : remaining.weight s.ev.sys.stateBits.toFinset < fuel) :
    s.ev.EndsBy blame (s.winRound moves round fuel remaining won) (s.RoundEnds moves round remaining won) := by
  induction fuel generalizing remaining won with
  | zero => exact absurd enough (Nat.not_lt_zero _)
  | succ fuel ih =>
      intro m kept
      unfold winRound
      cases none : remaining.isEmpty with
      | true => exact ⟨.ok won, m, rfl, kept, wonKnown, .over none⟩
      | false =>
          have nonempty : remaining.members.Nonempty := Region.not_empty_members.mp none
          have closedKnown := close_state_set plays.system remainingKnown
          obtain ⟨ends, each⟩ := strategies_partial plays closedKnown inside reads
          have attempted : s.ev.Safe blame (s.attempt moves round remaining won) (s.Going round remaining) :=
            safe_try_all plays safe reduces roundKnown closedKnown remainingKnown nonempty _ ends each
              ⟨remainingKnown, wonKnown, Set.Subset.refl _, covered, fun stopped => absurd stopped Bool.false_ne_true⟩
          obtain ⟨result, n, tried, still, going⟩ := attempted m kept
          rw [if_neg Bool.false_ne_true]
          cases result with
          | error e => exact ⟨.error e, n, run_bind_error tried, still, going, .fails none tried⟩
          | ok p =>
              have going : s.Going round remaining p := going
              cases stopped : p.stopped with
              | false =>
                  refine ⟨.ok p.won, n, (run_bind tried).trans ?_, still, going.wonKnown, .exhausted none tried stopped⟩
                  rw [stopped]
                  rfl
              | true =>
                  have less := Region.weight_strict remainingKnown.reads_bits going.fewer (going.progress stopped) going.remainingKnown.reads_bits
                  have fewer := going.fewer.ssubset_of_ne fun same => going.progress stopped (Region.members_injective same)
                  obtain ⟨result, k, later, kept, holds, ends⟩ :=
                    ih going.remainingKnown going.wonKnown going.covered (by omega) n still
                  refine ⟨result, k, (run_bind tried).trans ?_, kept, holds, .again none tried stopped fewer ends⟩
                  rw [stopped]
                  exact later

theorem rounds_end {moves : Region} (inside : moves.members ⊆ s.protocol.members) (reads : moves.Reads s.ev.sys.moveBit) (fuel : Nat)
    {all won : Region} (allKnown : s.ev.sys.StateSet all) (wonKnown : s.ev.sys.StateSet won)
    (reached : all.members ⊆ s.ev.sys.reachable.members) (enough : all.weight s.ev.sys.stateBits.toFinset < fuel) :
    s.ev.EndsBy blame (s.winAll moves fuel all won) (s.RoundsEnd moves all won) := by
  induction fuel generalizing all won with
  | zero => exact absurd enough (Nat.not_lt_zero _)
  | succ fuel ih =>
      intro m kept
      unfold winAll
      cases none : all.isEmpty with
      | true => exact ⟨.ok won, m, rfl, kept, wonKnown, .over none⟩
      | false =>
          have some : all.members.Nonempty := Region.not_empty_members.mp none
          obtain ⟨round, separated, separates, roundKnown, within, nonempty⟩ :=
            exists_separates plays.system plays.team allKnown reached some
          have taken : (Eval.ofExcept (s.separate all)).run m = (.ok round, m) := by
            rw [separated]
            rfl
          obtain ⟨result, n, ran, still, holds, ends⟩ := round_ends plays safe reduces roundKnown inside reads _ roundKnown wonKnown
            Set.subset_union_left (Frame.weight_less _ _) m kept
          rw [if_neg Bool.false_ne_true]
          cases result with
          | error e => exact ⟨.error e, n, (run_bind taken).trans (run_bind_error ran), still, holds, .fails none separates within nonempty ends⟩
          | ok now =>
              have nowKnown : s.ev.sys.StateSet now := holds
              have behind := behind_round allKnown roundKnown nowKnown within nonempty
              have less := behind.less
              obtain ⟨result, k, later, kept, holds, more⟩ := ih behind.known nowKnown (behind.fewer.trans reached) (by omega) n still
              exact ⟨result, k, (run_bind taken).trans ((run_bind ran).trans later), kept, holds,
                .next none separates within nonempty ends more⟩

theorem run_ends {states : Region} (known : s.ev.sys.StateSet states) : s.ev.EndsBy blame (s.run states) (s.Ends states) := by
  have led := (plays.system.reach_from_spec known.moves).1
  have narrow : (s.protocol.inter (s.ev.sys.reachFrom states)).members ⊆ s.protocol.members := Region.inter_subset_left _ _
  have rounds : ∀ moves : Region, s.ev.sys.PlayedSet moves → moves.members ⊆ s.protocol.members → s.ev.EndsBy blame
      (s.winAll moves (Nat.pow 2 s.ev.sys.stateBits.length + 1) (states.inter (s.possible moves)) .empty)
      (s.RoundsEnd moves (states.inter (s.possible moves)) .empty) := fun moves played inside => by
    refine rounds_end plays safe reduces inside played.reads _
      (known.inter (s.splitter.surely_winning_state_set plays.system played).reads) (.empty _) ?_ (Frame.weight_less _ _)
    rw [Region.members_inter]
    exact Set.inter_subset_right.trans (s.splitter.surely_winning_reached plays.system plays.team played)
  intro m kept
  unfold run
  cases on : s.ev.options.filtering with
  | false =>
      obtain ⟨result, n, ran, still, holds, ends⟩ := rounds s.protocol plays.played (Set.Subset.refl _) m kept
      exact ⟨result, n, ran, still, holds, .unfiltered on ends⟩
  | true =>
      obtain ⟨result, n, filtered, still, outcome⟩ := safe_winning plays safe narrow (plays.played.reads.inter led.moves) known m kept
      cases result with
      | error e => exact ⟨.error e, n, run_bind_error filtered, still, outcome, .fails on filtered⟩
      | ok moves =>
          obtain ⟨result, k, ran, kept, holds, ends⟩ := rounds moves outcome.1 outcome.2 n still
          exact ⟨result, k, (run_bind filtered).trans ran, kept, holds, .filtered on filtered ends⟩

theorem safe_run {states : Region} (known : s.ev.sys.StateSet states) : s.ev.Safe blame (s.run states) s.ev.sys.StateSet :=
  (run_ends plays safe reduces known).safe

end

end

end Search

end Coalition
