import Coalition.Proofs.Evaluation.Run

-- The states where a team wins with moves that agree.

set_option autoImplicit false

namespace Coalition

namespace System

-- The moves of `U` that win when nothing else is played.
def won (sys : System) (t : Team) (protocol : Region) (goal : Goal) (U : Set Valuation) : Set Valuation :=
  ((sys.arena t protocol).on U).wins goal.kind goal.left.members goal.right.members

-- As far as the viewers can tell, some of the moves that agree win in the state.
def Winnable (sys : System) (semantics : Semantics) (t : Team) (protocol : Region) (goal : Goal) (moves : Set Valuation)
    (s : Valuation) : Prop :=
  ∃ U ⊆ moves, Agreeing (t.viewers semantics) U ∧ sys.Sure semantics t (sys.won t protocol goal U) s

variable {sys : System} {semantics : Semantics} {t : Team} {protocol : Region} {goal : Goal} {U V : Set Valuation} {s : Valuation}

theorem won_subset : sys.won t protocol goal U ⊆ U :=
  (((sys.arena t protocol).on U).wins_subset_top _ _ _).trans Set.inter_subset_right

theorem won_protocol : sys.won t protocol goal U ⊆ protocol.members :=
  (((sys.arena t protocol).on U).wins_subset_top _ _ _).trans Set.inter_subset_left

theorem won_mono (le : U ⊆ V) : sys.won t protocol goal U ⊆ sys.won t protocol goal V :=
  Arena.wins_mono ((sys.arena t protocol).on_mono le) _ _ _

theorem won_won : sys.won t protocol goal (sys.won t protocol goal U) = sys.won t protocol goal U := by
  have self := ((sys.arena t protocol).on U).wins_on_self goal.kind goal.left.members goal.right.members
  rw [Arena.on_on] at self
  change ((sys.arena t protocol).on (U ∩ sys.won t protocol goal U)).wins _ _ _ = _ at self
  rwa [Set.inter_eq_self_of_subset_right won_subset] at self

theorem winnable_filtered (le : U ⊆ V) (keeps : sys.won t protocol goal V ⊆ U) :
    sys.Winnable semantics t protocol goal U s ↔ sys.Winnable semantics t protocol goal V s := by
  constructor
  · rintro ⟨W, inside, agreeing, sure⟩
    exact ⟨W, inside.trans le, agreeing, sure⟩
  · rintro ⟨W, inside, agreeing, sure⟩
    exact ⟨sys.won t protocol goal W, (won_mono inside).trans keeps, agreeing.mono won_subset, won_won.symm ▸ sure⟩

-- Moves that agree win together what they win at all.
theorem winnable_agreeing (agreeing : Agreeing (t.viewers semantics) (sys.won t protocol goal U)) :
    sys.Winnable semantics t protocol goal U s ↔ sys.Sure semantics t (sys.won t protocol goal U) s := by
  constructor
  · rintro ⟨W, inside, _, sure⟩
    exact sure.mono (won_mono inside)
  · intro sure
    exact ⟨sys.won t protocol goal U, won_subset, agreeing, won_won.symm ▸ sure⟩

-- What can be won by some moves can be won by one of their maximal parts.
theorem winnable_parts {e : Enumeration Region} (parts : Parts sys (t.viewers semantics) ∅ U e) :
    sys.Winnable semantics t protocol goal U s ↔ ∃ part ∈ e.items, sys.Sure semantics t (sys.won t protocol goal part.members) s := by
  constructor
  · rintro ⟨W, inside, agreeing, sure⟩
    obtain ⟨part, listed, above⟩ := parts.complete W inside (by rwa [Set.union_empty])
    exact ⟨part, listed, sure.mono (won_mono above)⟩
  · rintro ⟨part, listed, sure⟩
    have agreeing := parts.agreeing part listed
    rw [Set.union_empty] at agreeing
    exact ⟨part.members, parts.inside part listed, agreeing, sure⟩

theorem winnable_class {e : Enumeration Region} {here rest : Set Valuation} (parts : Parts sys (t.viewers semantics) ∅ here e)
    (whole : sys.won t protocol goal U = here ∪ rest) :
    sys.Winnable semantics t protocol goal U s ↔ ∃ part ∈ e.items, sys.Winnable semantics t protocol goal (rest ∪ part.members) s := by
  have le : here ∪ rest ⊆ U := whole ▸ won_subset
  constructor
  · rintro ⟨W, inside, agreeing, sure⟩
    have mine := (won_mono inside).trans whole.le
    obtain ⟨part, listed, above⟩ := parts.complete (sys.won t protocol goal W ∩ here) Set.inter_subset_right
      (by rw [Set.union_empty]; exact agreeing.mono (Set.inter_subset_left.trans won_subset))
    refine ⟨part, listed, sys.won t protocol goal W, fun ρ won => ?_, agreeing.mono won_subset, won_won.symm ▸ sure⟩
    exact (mine won).elim (fun inClass => .inr (above ⟨won, inClass⟩)) .inl
  · rintro ⟨part, listed, W, inside, agreeing, sure⟩
    refine ⟨W, inside.trans (Set.union_subset ?_ ?_), agreeing, sure⟩
    · exact Set.subset_union_right.trans le
    · exact (parts.inside part listed).trans (Set.subset_union_left.trans le)

end System

namespace Evaluator

-- A goal on states for a team of a well-formed system, with the moves it may play.
structure Posed (ev : Evaluator) (t : Team) (protocol : Region) (goal : Goal) : Prop where
  system : ev.sys.WellFormed
  team : t.Of ev.sys
  played : ev.sys.PlayedSet protocol
  left : ev.sys.StateSet goal.left
  right : ev.sys.StateSet goal.right

def filtered (ev : Evaluator) (t : Team) (protocol : Region) (goal : Goal) (moves : Region) : Region :=
  (MoveGame.winning ⟨ev.sys, t, protocol, moves⟩ goal).value

def sure (ev : Evaluator) (t : Team) (protocol : Region) (goal : Goal) (moves : Region) : Region :=
  (ev.splitter t).surelyWinning ((ev.filtered t protocol goal moves).hide ev.sys.inputBits)

def Wins (ev : Evaluator) (t : Team) (protocol : Region) (goal : Goal) (moves : Set Valuation) (r : Region) : Prop :=
  ∀ ρ, ρ ∈ r.members ↔ ev.sys.Winnable ev.options.semantics t protocol goal moves (ev.sys.stateOf ρ)

def Decides (ev : Evaluator) (t : Team) (protocol : Region) (goal : Goal) (moves : Set Valuation) (x : Eval Region) (m : Memory) :
    Prop :=
  Eval.Finds x m fun ρ => ev.sys.Winnable ev.options.semantics t protocol goal moves (ev.sys.stateOf ρ)

structure Clash (ev : Evaluator) (t : Team) (moves here : Region) : Prop where
  played : ev.sys.PlayedSet here
  inside : here.members ⊆ moves.members
  differs : ¬ Agreeing (t.viewers ev.options.semantics) here.members
  alike : ev.options.semantics = .group → ∀ ρ ∈ here.members, ∀ σ ∈ here.members, t.Same ρ σ

theorem Clash.part {ev : Evaluator} {t : Team} {moves here part wider : Region} (clash : ev.Clash t moves here)
    (played : ev.sys.PlayedSet moves) (le : moves.members ⊆ wider.members) (wideReads : wider.Reads ev.sys.moveBit)
    (inside : part.members ⊆ here.members) (reads : part.Reads ev.sys.moveBit)
    (agreeing : Agreeing (t.viewers ev.options.semantics) part.members) :
    ((moves.diff here).union part).members ⊆ moves.members ∧ ((moves.diff here).union part).Reads ev.sys.moveBit ∧
      ev.sys.moveCount ((moves.diff here).union part) < ev.sys.moveCount wider := by
  have within : ((moves.diff here).union part).members ⊆ moves.members := by
    rw [Region.members_union, Region.members_diff]
    exact Set.union_subset Set.sdiff_subset (inside.trans clash.inside)
  have unionReads := (played.reads.diff clash.played.reads).union reads
  obtain ⟨ρ, inClass, outside⟩ : ∃ ρ ∈ here.members, ρ ∉ part.members := by
    by_contra all
    push Not at all
    exact clash.differs (agreeing.mono all)
  refine ⟨within, unionReads, System.move_count_less unionReads wideReads (within.trans le) (le (clash.inside inClass)) fun member => ?_⟩
  rw [Region.members_union, Region.members_diff] at member
  exact member.elim (fun rest => rest.2 inClass) outside

variable {ev : Evaluator} {t : Team} {protocol moves : Region} {goal : Goal} {m : Memory}

theorem Wins.unique {U : Set Valuation} {r s : Region} (first : ev.Wins t protocol goal U r) (second : ev.Wins t protocol goal U s) :
    r = s :=
  Region.members_injective (Set.ext fun ρ => (first ρ).trans (second ρ).symm)

theorem gives_winning_moves (moves : Region) : Eval.Gives (ev.winningMoves t protocol goal moves) m (ev.filtered t protocol goal moves) :=
  Eval.gives_counted _

theorem gives_winning_states (strategy : Region) :
    Eval.Gives (ev.winningStates t protocol goal strategy) m (ev.sure t protocol goal strategy) := by
  refine Eval.gives_bind (Eval.gives_count _ _) fun n _ => ?_
  exact Eval.gives_bind (gives_winning_moves strategy) fun k _ => Eval.gives_pure _

section

variable (posed : ev.Posed t protocol goal)

include posed

theorem Wins.state_set {U : Set Valuation} {r : Region} (wins : ev.Wins t protocol goal U r) : ev.sys.StateSet r := by
  constructor
  case inside =>
    intro ρ member
    obtain ⟨W, _, _, ⟨μ, won, same⟩, _⟩ := (wins ρ).mp member
    exact (Frame.mem_of_state ev.sys.reads_states_mask same).mp (posed.played.masked (System.won_protocol won)).1
  case reads =>
    refine Region.Reads.of_mem fun ρ σ agree member => (wins σ).mpr ?_
    rw [← Frame.state_of_eq_iff.mpr agree]
    exact (wins ρ).mp member

theorem filtered_spec (inside : moves.members ⊆ protocol.members) (reads : moves.Reads ev.sys.moveBit) :
    (ev.filtered t protocol goal moves).Reads ev.sys.moveBit ∧
      (ev.filtered t protocol goal moves).members = ev.sys.won t protocol goal moves.members := by
  have proper : MoveGame.Proper ⟨ev.sys, t, protocol, moves⟩ :=
    ⟨posed.system, posed.team, ⟨posed.played.inside, posed.played.reads⟩, reads, inside⟩
  exact MoveGame.winning_spec proper goal (posed.left.reads.mono ev.sys.state_subset_move) posed.right

theorem filtered_played (inside : moves.members ⊆ protocol.members) (reads : moves.Reads ev.sys.moveBit) :
    ev.sys.PlayedSet (ev.filtered t protocol goal moves) := by
  obtain ⟨wonReads, same⟩ := filtered_spec posed inside reads
  exact posed.played.sub (same ▸ System.won_protocol) wonReads

theorem mem_sure (inside : moves.members ⊆ protocol.members) (reads : moves.Reads ev.sys.moveBit) {ρ : Valuation} :
    ρ ∈ (ev.sure t protocol goal moves).members ↔
      ev.sys.Sure ev.options.semantics t (ev.sys.won t protocol goal moves.members) (ev.sys.stateOf ρ) := by
  rw [← (filtered_spec posed inside reads).2]
  exact @Splitter.surely_winning_members (ev.splitter t) _ _ posed.system posed.team (filtered_played posed inside reads)

theorem union_split_spec (inside : moves.members ⊆ protocol.members) (reads : moves.Reads ev.sys.moveBit) :
    ev.Decides t protocol goal moves.members
      (Eval.unionEach (ev.winningStates t protocol goal) ((ev.splitter t).split moves .empty) .empty) m := by
  have parts := @Splitter.split_free_spec (ev.splitter t) _ posed.system posed.team (posed.played.sub inside reads)
  have each := Eval.finds_union_each (m := m) _ parts.ends (fun part listed _ => (gives_winning_states part).finds fun ρ =>
    mem_sure (ρ := ρ) posed ((parts.inside part listed).trans inside) (parts.reads part listed)) .empty
  refine each.congr fun ρ => ?_
  rw [Region.members_empty, Set.mem_empty_iff_false, false_or]
  exact (System.winnable_parts parts).symm

theorem first_conflict_spec (fuel : Nat) (played : ev.sys.PlayedSet moves) (enough : ev.sys.moveCount moves < fuel) :
    (firstConflict (ev.splitter t) fuel moves = .ok none ∧ Agreeing (t.viewers ev.options.semantics) moves.members) ∨
      ∃ here, firstConflict (ev.splitter t) fuel moves = .ok (some here) ∧ ev.Clash t moves here := by
  induction fuel generalizing moves with
  | zero => omega
  | succ fuel ih =>
      cases none : moves.isEmpty with
      | true =>
          refine .inl ⟨by rw [firstConflict, none]; rfl, fun w _ ρ here => ?_⟩
          rw [Region.is_empty_members.mp none] at here
          exact here.elim
      | false =>
          obtain ⟨μ, member, c, picked, around, _⟩ :=
            @Splitter.pick_move_spec (ev.splitter t) _ played (Region.not_empty_members.mp none)
          have cut := @Splitter.class_spec (ev.splitter t) _ _ _ posed.system posed.team played member around
          obtain ⟨conflict, decided, spec⟩ :=
            @Splitter.is_conflicting_spec (ev.splitter t) _ posed.system posed.team cut.herePlayed ⟨μ, cut.itself⟩ cut.alike
          have step : firstConflict (ev.splitter t) (fuel + 1) moves = if conflict
              then .ok (some (moves.inter ((ev.splitter t).classOfMove c)))
              else firstConflict (ev.splitter t) fuel (moves.diff (moves.inter ((ev.splitter t).classOfMove c))) := by
            rw [firstConflict, none]
            simp only [Bool.false_eq_true, if_false, picked]
            show ((ev.splitter t).isConflicting _ >>= _) = _
            rw [decided]
            cases conflict <;> rfl
          rw [step]
          cases conflict with
          | true =>
              refine .inr ⟨_, rfl, cut.herePlayed, cut.here_subset, fun agreeing => ?_, cut.alike⟩
              exact Bool.noConfusion (spec.mpr agreeing)
          | false =>
              obtain ⟨found, agreeing⟩ | ⟨found, later, clash⟩ := ih cut.restPlayed (lt_of_lt_of_le cut.less (Nat.le_of_lt_succ enough))
              · exact .inl ⟨found, cut.whole ▸ (spec.mp rfl).union agreeing cut.apart⟩
              · exact .inr ⟨found, later, clash.played, clash.inside.trans cut.rest_subset, clash.differs, clash.alike⟩

theorem decides_nothing (inside : moves.members ⊆ protocol.members) (reads : moves.Reads ev.sys.moveBit)
    (none : (ev.filtered t protocol goal moves).isEmpty = true) {r : Region} (empty : r.members = ∅) :
    ev.Decides t protocol goal moves.members (pure r) m := by
  refine (Eval.gives_pure _).finds fun ρ => ⟨fun bad => ?_, fun ⟨U, le, _, ⟨μ, won, _⟩, _⟩ => ?_⟩
  · rw [empty] at bad
    exact bad.elim
  · have member := System.won_mono le won
    rw [← (filtered_spec posed inside reads).2, Region.is_empty_members.mp none] at member
    exact member.elim

theorem filter_union_spec : ev.Decides t protocol goal protocol.members (do
    let won ← ev.winningMoves t protocol goal protocol
    if won.isEmpty then return .empty
    Eval.unionEach (ev.winningStates t protocol goal) ((ev.splitter t).split won .empty) .empty) m := by
  have le := Set.Subset.refl protocol.members
  obtain ⟨reads, same⟩ := filtered_spec posed le posed.played.reads
  refine Eval.finds_bind (gives_winning_moves protocol) fun n _ => ?_
  cases none : (ev.filtered t protocol goal protocol).isEmpty with
  | true => exact decides_nothing posed le posed.played.reads none Region.members_empty
  | false =>
      have inside : (ev.filtered t protocol goal protocol).members ⊆ protocol.members := same ▸ System.won_protocol
      refine (union_split_spec posed inside reads).congr fun ρ => ?_
      exact System.winnable_filtered inside same.ge

theorem filter_split_from_spec (fuel : Nat) (inside : moves.members ⊆ protocol.members) (reads : moves.Reads ev.sys.moveBit)
    (enough : ev.sys.moveCount moves < fuel) :
    ev.Decides t protocol goal moves.members (ev.filterSplitFrom t protocol goal fuel moves) m := by
  induction fuel generalizing moves m with
  | zero => omega
  | succ fuel ih =>
      obtain ⟨wonReads, same⟩ := filtered_spec posed inside reads
      have wonPlayed := filtered_played posed inside reads
      have wonMoves : (ev.filtered t protocol goal moves).members ⊆ moves.members := same ▸ System.won_subset
      refine Eval.finds_bind (gives_winning_moves moves) fun n _ => ?_
      cases none : (ev.filtered t protocol goal moves).isEmpty with
      | true => exact decides_nothing posed inside reads none (Region.is_empty_members.mp none)
      | false =>
          obtain ⟨found, agreeing⟩ | ⟨here, found, clash⟩ := first_conflict_spec posed (ev.splitter t).bound wonPlayed
            (System.move_count_bound _ _ _)
          · refine Eval.finds_bind (Eval.gives_of_except found) fun k _ => ?_
            refine Eval.finds_bind (Eval.gives_count _ _) fun j _ => (Eval.gives_pure (ev.sure t protocol goal moves)).finds fun ρ => ?_
            rw [mem_sure posed inside reads]
            exact (System.winnable_agreeing (same ▸ agreeing)).symm
          · have nothing : ev.sys.PlayedSet .empty := ⟨by simp, by simp, Region.reads_empty _⟩
            have parts := @Splitter.split_class_spec (ev.splitter t) _ _ posed.system nothing posed.team (by simp [Agreeing])
              clash.played clash.alike
            rw [Region.members_empty] at parts
            have whole : ev.sys.won t protocol goal moves.members =
                here.members ∪ ((ev.filtered t protocol goal moves).diff here).members := by
              rw [← same, Region.members_diff, Set.union_sdiff_cancel clash.inside]
            have collected : ((ev.splitter t).splitClass .empty here).collect = .ok ((ev.splitter t).splitClass .empty here).items := by
              rw [Enumeration.collect, parts.ends]
            refine Eval.finds_bind (Eval.gives_of_except found) fun k _ => ?_
            refine Eval.finds_bind (Eval.gives_of_except collected) fun j _ => ?_
            refine (Eval.finds_fold (P := fun part ρ => ev.sys.Winnable ev.options.semantics t protocol goal
              (((ev.filtered t protocol goal moves).diff here).members ∪ part.members) (ev.sys.stateOf ρ)) _
              (fun part listed n => ?_) .empty).congr fun ρ => ?_
            · have agreeing := parts.agreeing part listed
              rw [Set.union_empty] at agreeing
              obtain ⟨le, partReads, less⟩ := clash.part wonPlayed wonMoves reads (parts.inside part listed) (parts.reads part listed) agreeing
              have later := ih (m := n) (le.trans (wonMoves.trans inside)) partReads (by omega)
              rwa [Region.members_union] at later
            · rw [Region.members_empty, Set.mem_empty_iff_false, false_or]
              exact (System.winnable_class parts whole).symm

end

-- The computation asks for the protocol of the team and finds the states that can be won within it.
def Solves (ev : Evaluator) (t : Team) (goal : Goal) (x : Eval Region) (m : Memory) : Prop :=
  Eval.Ends x m fun r n => ev.Wins t (m.protocolFor ev.sys t) goal (m.protocolFor ev.sys t).members r ∧ (m.learned ev.sys t).Alike n

theorem posed_protocol (wf : ev.sys.WellFormed) (of : t.Of ev.sys) (sound : m.Sound ev.sys) (left : ev.sys.StateSet goal.left)
    (right : ev.sys.StateSet goal.right) : ev.Posed t (m.protocolFor ev.sys t) goal := by
  obtain ⟨u, uOf, same⟩ := sound.protocol_for of
  exact ⟨wf, of, same ▸ wf.protocol_played uOf, left, right⟩

section

variable (known : ev.sys.team t.names = .ok t) (posed : ev.Posed t (m.protocolFor ev.sys t) goal)

include known posed

theorem solves_of_decides {f : Region → Eval Region}
    (decides : ∀ protocol, ev.Posed t protocol goal → ∀ n, ev.Decides t protocol goal protocol.members (f protocol) n) :
    ev.Solves t goal (Eval.protocol ev.sys t >>= f) m := by
  refine Eval.ends_bind (Eval.ends_protocol known) fun protocol n asked => ?_
  obtain ⟨rfl, rfl⟩ := asked
  exact decides _ posed _

theorem split_filter_solves : ev.Solves t goal (ev.splitFilter t goal) m :=
  solves_of_decides known posed fun _ posed _ => union_split_spec posed (Set.Subset.refl _) posed.played.reads

theorem filter_split_filter_solves : ev.Solves t goal (ev.filterSplitFilter t goal) m :=
  solves_of_decides known posed fun _ posed _ => filter_union_spec posed

theorem filter_split_solves : ev.Solves t goal (ev.filterSplit t goal) m :=
  solves_of_decides known posed fun _ posed _ =>
    filter_split_from_spec posed _ (Set.Subset.refl _) posed.played.reads (System.move_count_bound _ _ _)

end

end Evaluator

end Coalition
