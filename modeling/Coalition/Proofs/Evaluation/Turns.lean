import Coalition.Evaluation.Search
import Coalition.Proofs.Evaluation.Threshold
import Coalition.Proofs.Strategy.Split

-- How the search goes on after a strategy: with the next one, or it stops to start over.

set_option autoImplicit false

namespace Coalition.Search

theorem asked_state_set {s : Search} (wf : s.ev.sys.WellFormed) {strategy source : Region} (played : s.ev.sys.PlayedSet strategy)
    (known : s.ev.sys.StateSet source) (next : Prop) [Decidable next] :
    s.ev.sys.StateSet (if next then s.ev.sys.post (source.inter strategy) else strategy.hide s.ev.sys.inputBits) := by
  split
  · exact wf.post_state_set (known.moves.inter played.reads)
  · exact (s.splitter).hide_state_set wf played

theorem now_state_set {s : Search} (wf : s.ev.sys.WellFormed) {won round moves : Region} (wonKnown : s.ev.sys.StateSet won)
    (roundKnown : s.ev.sys.StateSet round) (played : s.ev.sys.PlayedSet moves) :
    s.ev.sys.StateSet (won.union ((s.splitter.surelyWinning (moves.hide s.ev.sys.inputBits)).inter round)) :=
  wonKnown.union ((s.splitter.surely_winning_state_set wf played).inter roundKnown.reads)

inductive Turn where
  | on (rest : Region)
  | stop (rest : Region)
  | fail

-- Whether to stop depends on what has been won with the strategy that was tried last.
def turn (s : Search) (round : Region) (size : Nat) (remaining won now : Region) : Turn :=
  match s.ev.options.early with
  | .none => .on remaining
  | .full => if round.subset now then .stop .empty else .on remaining
  | .progress => if now ≠ won then .stop (remaining.diff now) else .on remaining
  | .threshold =>
      match s.ev.options.threshold.allows (s.ev.sys.countStates (remaining.diff now)) size with
      | none => .fail
      | some true => .stop (remaining.diff now)
      | some false => .on (remaining.diff now)

variable {s : Search} {round closed remaining won now first strategy : Region} {size : Nat}

theorem try_all_item (tail : Unit → Enumeration Region) : s.tryAll round closed size (.item strategy tail) remaining won = (do
    .count .strategies 1
    let moves ← s.winning strategy closed
    let now := won.union ((s.splitter.surelyWinning (moves.hide s.ev.sys.inputBits)).inter round)
    match s.turn round size remaining won now with
    | .on rest => s.tryAll round closed size (tail ()) rest now
    | .stop rest => stop rest now
    | .fail => throw .noThreshold) := by
  rw [tryAll]
  refine congrArg _ (funext fun _ => congrArg _ (funext fun moves => ?_))
  unfold turn
  dsimp only
  generalize won.union ((s.splitter.surelyWinning (moves.hide s.ev.sys.inputBits)).inter round) = now
  cases s.ev.options.early with
  | none => rfl
  | full =>
      dsimp only
      split_ifs <;> rfl
  | progress =>
      dsimp only
      split_ifs <;> rfl
  | threshold =>
      dsimp only
      rcases s.ev.options.threshold.allows (s.ev.sys.countStates (remaining.diff now)) size with - | (_ | _) <;> rfl

def Turn.Leaves (P : Region → Prop) : Turn → Prop
  | .on rest => P rest
  | .stop rest => P rest
  | .fail => True

theorem turn_leaves (known : s.ev.sys.StateSet remaining) (nowKnown : s.ev.sys.StateSet now) :
    (s.turn round size remaining won now).Leaves s.ev.sys.StateSet := by
  have left := known.diff nowKnown.reads
  unfold turn
  cases s.ev.options.early with
  | none => exact known
  | full =>
      dsimp only
      split
      · exact .empty _
      · exact known
  | progress =>
      dsimp only
      split
      · exact left
      · exact known
  | threshold =>
      dsimp only
      split
      · trivial
      · exact left
      · exact left

-- Of the states that remained some do, and all of the round that have not been won.
structure Remains (s : Search) (round remaining now rest : Region) : Prop where
  known : s.ev.sys.StateSet rest
  fewer : rest.members ⊆ remaining.members
  covered : round.members ⊆ rest.members ∪ now.members

-- The search stops only with fewer states than it started from, and fails only for want of a threshold.
def Turn.Fits (s : Search) (round remaining now first : Region) : Turn → Prop
  | .on rest => s.Remains round remaining now rest
  | .stop rest => s.Remains round remaining now rest ∧
      ((s.ev.options.early = .threshold → s.ev.options.threshold.Reduces ∨ s.ev.options.threshold = .nan) → rest ≠ first)
  | .fail => s.ev.options.early = .threshold ∧ ¬ s.ev.options.threshold.Reduces

theorem turn_fits (wf : s.ev.sys.WellFormed) (known : s.ev.sys.StateSet remaining) (nowKnown : s.ev.sys.StateSet now)
    (firstKnown : s.ev.sys.StateSet first) (some : first.members.Nonempty) (le : remaining.members ⊆ first.members)
    (covered : round.members ⊆ remaining.members ∪ won.members) (more : won.members ⊆ now.members)
    (within : now.members ⊆ won.members ∪ round.members) :
    (s.turn round (s.ev.sys.countStates first) remaining won now).Fits s round remaining now first := by
  have staying : s.Remains round remaining now remaining :=
    ⟨known, Set.Subset.refl _, covered.trans (Set.union_subset_union_right _ more)⟩
  have left : s.Remains round remaining now (remaining.diff now) := by
    refine ⟨known.diff nowKnown.reads, ?_, Region.subset_diff_union staying.covered⟩
    rw [Region.members_diff]
    exact Set.sdiff_subset
  unfold turn
  cases mode : s.ev.options.early with
  | none => exact staying
  | full =>
      dsimp only
      split
      · rename_i all
        refine ⟨⟨.empty _, by simp, (Region.members_subset.mp all).trans Set.subset_union_right⟩, fun _ same => ?_⟩
        rw [← same, Region.members_empty] at some
        exact Set.not_nonempty_empty some
      · exact staying
  | progress =>
      dsimp only
      split
      · rename_i new
        refine ⟨left, fun _ same => ?_⟩
        refine new (Region.members_injective (Set.Subset.antisymm (fun ρ here => ?_) more))
        by_contra before
        have remains := (covered ((within here).resolve_left before)).resolve_right before
        exact Region.diff_ne_of_mem here (le remains) same
      · exact staying
  | threshold =>
      have allowed := fun reduces : s.ev.options.threshold.Reduces =>
        reduces (s.ev.sys.countStates (remaining.diff now)) _ (wf.count_states_pos firstKnown some)
      dsimp only
      split
      · rename_i none
        refine ⟨mode, fun reduces => ?_⟩
        obtain ⟨_, given, _⟩ := allowed reduces
        rw [none] at given
        cases given
      · rename_i stops
        refine ⟨left, fun either same => ?_⟩
        obtain reduces | none := either mode
        · obtain ⟨stop, given, less⟩ := allowed reduces
          rw [stops] at given
          have less := less (Option.some.inj given).symm
          rw [same] at less
          exact Nat.lt_irrefl _ less
        · rw [none] at stops
          cases stops
      · exact left

-- What a round leaves for the next ones. It takes away a state at least, its own.
structure Behind (sys : System) (all round now rest : Region) : Prop where
  known : sys.StateSet rest
  members : rest.members = (all.members \ round.members) \ now.members
  fewer : rest.members ⊆ all.members
  less : rest.weight sys.stateBits.toFinset < all.weight sys.stateBits.toFinset

theorem behind_round {sys : System} {all : Region} (known : sys.StateSet all) (roundKnown : sys.StateSet round) (nowKnown : sys.StateSet now)
    (within : round.members ⊆ all.members) (some : round.members.Nonempty) : Behind sys all round now ((all.diff round).diff now) := by
  have restKnown := (known.diff roundKnown.reads).diff nowKnown.reads
  have members : ((all.diff round).diff now).members = (all.members \ round.members) \ now.members := by
    rw [Region.members_diff, Region.members_diff]
  have fewer : ((all.diff round).diff now).members ⊆ all.members := members ▸ Set.sdiff_subset.trans Set.sdiff_subset
  refine ⟨restKnown, members, fewer, Region.weight_strict known.reads_bits fewer (fun same => ?_) restKnown.reads_bits⟩
  obtain ⟨σ, here⟩ := some
  have both := same.symm ▸ within here
  rw [members] at both
  exact both.1.2 here

end Coalition.Search
