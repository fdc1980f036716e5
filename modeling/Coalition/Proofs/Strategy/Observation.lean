import Coalition.Proofs.Model.States
import Coalition.Proofs.Region.Listing
import Coalition.Proofs.Strategy.Split
import Coalition.Strategy.Encoding

-- Observations take the states of some moves apart into classes that look the same, and list the actions of each class.

set_option autoImplicit false

namespace Coalition

-- The observation holds the states that look like one where something is played, and lists nothing but what is played there.
structure Observation.Fits (o : Observation) (sys : System) (t : Team) (moves : Set Valuation) : Prop where
  known : sys.StateSet o.states
  alike : ∀ ρ ∈ o.states.members, ∀ σ, σ ∈ o.states.members ↔ σ ∈ sys.statesMask.members ∧ t.Same ρ σ
  meets : ∃ μ ∈ moves, μ ∈ o.states.members
  played : ∀ a ∈ o.actions, ∃ μ ∈ moves, μ ∈ o.states.members ∧ ∀ ρ, ρ ∈ a.members ↔ t.Plays ρ μ

def Observation.Complete (o : Observation) (t : Team) (moves : Set Valuation) : Prop :=
  ∀ μ ∈ moves, μ ∈ o.states.members → ∃ a ∈ o.actions, ∀ ρ, ρ ∈ a.members ↔ t.Plays ρ μ

-- Observations that share no state, and every state of the moves in one of them.
structure Observed (sys : System) (t : Team) (moves : Set Valuation) (os : List Observation) : Prop where
  fits : ∀ o ∈ os, o.Fits sys t moves
  apart : os.Pairwise fun o p => ∀ ρ ∈ o.states.members, ρ ∉ p.states.members
  covered : ∀ μ ∈ moves, ∃ o ∈ os, μ ∈ o.states.members

namespace Observation

variable {sys : System} {t : Team} {o p : Observation} {moves : Set Valuation}

theorem Fits.nonempty (fits : o.Fits sys t moves) (complete : o.Complete t moves) : o.actions ≠ [] := by
  obtain ⟨μ, played, here⟩ := fits.meets
  obtain ⟨a, listed, _⟩ := complete μ played here
  exact List.ne_nil_of_mem listed

theorem Fits.apart (first : p.Fits sys t moves) (later : o.Fits sys t (moves \ p.states.members)) {ρ : Valuation}
    (here : ρ ∈ p.states.members) : ρ ∉ o.states.members := by
  intro there
  obtain ⟨μ, ⟨_, outside⟩, inside⟩ := later.meets
  exact outside ((first.alike ρ here μ).mpr ((later.alike ρ there μ).mp inside))

theorem Fits.widen {U : Set Valuation} (fits : o.Fits sys t U) (le : U ⊆ moves) : o.Fits sys t moves where
  known := fits.known
  alike := fits.alike
  meets := fits.meets.imp fun _ here => ⟨le here.1, here.2⟩
  played a listed := (fits.played a listed).imp fun _ here => ⟨le here.1, here.2⟩

theorem Complete.widen (complete : o.Complete t (moves \ p.states.members)) (first : p.Fits sys t moves)
    (later : o.Fits sys t (moves \ p.states.members)) : o.Complete t moves :=
  fun μ played here => complete μ ⟨played, fun inside => first.apart later inside here⟩ here

end Observation

theorem Observed.cons {sys : System} {t : Team} {moves : Set Valuation} {o : Observation} {os : List Observation}
    (first : o.Fits sys t moves) (later : Observed sys t (moves \ o.states.members) os) : Observed sys t moves (o :: os) where
  fits := List.forall_mem_cons.mpr ⟨first, fun p listed => (later.fits p listed).widen Set.sdiff_subset⟩
  apart := List.pairwise_cons.mpr ⟨fun p listed _ here => first.apart (later.fits p listed) here, later.apart⟩
  covered μ played := by
    by_cases here : μ ∈ o.states.members
    · exact ⟨o, List.mem_cons_self, here⟩
    · obtain ⟨p, listed, inside⟩ := later.covered μ ⟨played, here⟩
      exact ⟨p, List.mem_cons_of_mem _ listed, inside⟩

namespace Encoding

variable {sys : System} {t : Team} {moves c : Region} {μ ρ : Valuation}

-- A list has room for what the team does in the states of the moves that look like any one of them.
def Fits (sys : System) (t : Team) (moves : Region) : Prop :=
  ∀ μ ∈ moves.members, Space.Fits (offered sys t moves (sys.equivalents t (sys.only μ))) t.actionBits

-- Nothing that the team does in such states is so much that it counts as nothing.
def Counts (sys : System) (t : Team) (moves : Region) : Prop :=
  ∀ μ ∈ moves.members, Space.Counts (offered sys t moves (sys.equivalents t (sys.only μ))) t.actionBits

def stateCount (sys : System) (moves : Region) : Nat := (moves.hide sys.inputBits).weight sys.stateBits.toFinset

theorem state_count_bound (sys : System) (moves : Region) : stateCount sys moves < Nat.pow 2 sys.stateBits.length + 1 :=
  sys.weight_less (moves.hide sys.inputBits)

section

variable (wf : sys.WellFormed) (of : t.Of sys)

include wf

-- Setting a state aside with all its moves leaves fewer states.
theorem state_count_less {states : Region} (reads : moves.Reads sys.moveBit) (known : sys.StateSet states) (played : μ ∈ moves.members)
    (here : μ ∈ states.members) : stateCount sys (moves.diff states) < stateCount sys moves := by
  have range : ∀ {s : Region}, s.Reads sys.moveBit → (s.hide sys.inputBits).Reads (sys.stateBits.toFinset : Finset Nat) := by
    intro s readsS
    refine (Frame.reads_hide_inputs readsS).mono fun b state => ?_
    rw [Finset.mem_coe, List.mem_toFinset]
    exact state
  have lessReads : (moves.diff states).Reads sys.moveBit := reads.diff (known.reads.mono sys.state_subset_move)
  refine Region.weight_strict (range reads) (Region.hide_mono _ ?_) (fun same => ?_) (range lessReads)
  · rw [Region.members_diff]
    exact Set.sdiff_subset
  · have member : μ ∈ ((moves.diff states).hide sys.inputBits).members := same ▸ Region.hide_subset _ _ played
    obtain ⟨σ, inside, there⟩ := (Frame.mem_hide_inputs wf.laid lessReads).mp member
    rw [Region.members_diff] at inside
    exact inside.2 ((Frame.mem_of_state known.reads there).mpr here)

include of

omit wf of in
theorem only_around (sys : System) (μ : Valuation) : sys.Around (sys.only μ) μ where
  reads := (sys.only_reads μ).mono sys.state_subset_move
  states _ member := Frame.mem_only.mp member
  itself := Frame.mem_only.mpr rfl

theorem equivalents_around (around : sys.Around c μ) (state : μ ∈ sys.statesMask.members) :
    sys.equivalents t c = sys.equivalents t (sys.only μ) := by
  refine Region.members_injective (Set.ext fun ρ => ?_)
  rw [@Splitter.mem_equivalents_around ⟨sys, t, .group⟩ t c ρ μ wf of around state,
    @Splitter.mem_equivalents_around ⟨sys, t, .group⟩ t (sys.only μ) ρ μ wf of (only_around sys μ) state]

theorem mem_offered (played : sys.PlayedSet moves) {states : Region} (known : sys.StateSet states) :
    ρ ∈ ((offered sys t moves states).keep t.actionBits).members ↔ ∃ σ, (σ ∈ moves.members ∧ σ ∈ states.members) ∧ t.Plays σ ρ := by
  have action := fun σ => @Splitter.mem_action ⟨sys, t, .group⟩ t (moves.inter states) σ wf of
    (played.reads.inter (known.reads.mono sys.state_subset_move))
  simp only [Region.members_inter] at action
  rw [Region.mem_keep]
  constructor
  · rintro ⟨σ, inside, agree⟩
    obtain ⟨τ, here, plays⟩ := (action σ).mp inside
    exact ⟨τ, here, plays.trans agree⟩
  · rintro ⟨σ, here, plays⟩
    exact ⟨σ, (action σ).mpr ⟨σ, here, .refl t σ⟩, plays⟩

theorem listed_played (played : sys.PlayedSet moves) {states : Region} (known : sys.StateSet states) {all : List Region}
    (listed : Space.listing (offered sys t moves states) t.actionBits = .ok all) {a : Region} (offers : a ∈ all) :
    ∃ μ ∈ moves.members, μ ∈ states.members ∧ ∀ ρ, ρ ∈ a.members ↔ t.Plays ρ μ := by
  obtain ⟨ν, kept, rfl⟩ := (Region.pick_all_spec _ t.actionBits).1 a ((Space.listing_part listed).1.subset offers)
  obtain ⟨σ, ⟨inside, here⟩, plays⟩ := (mem_offered wf of played known).mp kept
  refine ⟨σ, inside, here, fun ρ => ?_⟩
  rw [Region.mem_cell_of]
  exact ⟨fun same => Team.Plays.trans same plays.symm, fun same => Team.Plays.trans same plays⟩

theorem listed_complete (played : sys.PlayedSet moves) {o : Observation} (known : sys.StateSet o.states)
    (listed : Space.listing (offered sys t moves o.states) t.actionBits = .ok o.actions)
    (fits : Space.Fits (offered sys t moves o.states) t.actionBits) : o.Complete t moves.members := by
  intro μ member here
  have whole := Except.ok.inj ((Space.listing_whole fits).symm.trans listed)
  have offers := (Region.pick_all_spec (offered sys t moves o.states) t.actionBits).2 μ
    ((mem_offered wf of played known).mpr ⟨μ, ⟨member, here⟩, .refl t μ⟩)
  exact ⟨_, whole ▸ offers, fun ρ => Region.mem_cell_of⟩

omit wf of in
theorem offered_apart {states others : Region} (apart : ∀ ρ ∈ states.members, ρ ∉ others.members) :
    offered sys t (moves.diff others) states = offered sys t moves states := by
  refine congrArg (Region.hide · _) (Region.members_injective (Set.ext fun ρ => ?_))
  simp only [Region.members_inter, Region.members_diff, Set.mem_inter_iff, Set.mem_sdiff]
  exact and_congr_left fun here => and_iff_left (apart ρ here)

theorem Fits.diff (fits : Fits sys t moves) (played : sys.PlayedSet moves) {o : Observation} (first : o.Fits sys t moves.members) :
    Fits sys t (moves.diff o.states) := by
  intro μ left
  rw [Region.members_diff] at left
  have state := (played.masked left.1).1
  rw [offered_apart fun ρ here there => left.2 ?_]
  · exact fits μ left.1
  · have same := ((@Splitter.mem_equivalents_around ⟨sys, t, .group⟩ t (sys.only μ) ρ μ wf of (only_around sys μ) state).mp here).2
    exact (first.alike ρ there μ).mpr ⟨state, same.symm⟩

theorem observation_fits (played : sys.PlayedSet moves) (around : sys.Around c μ) (member : μ ∈ moves.members) {all : List Region}
    (listed : Space.listing (offered sys t moves (sys.equivalents t c)) t.actionBits = .ok all) :
    (Observation.mk (sys.equivalents t c) all).Fits sys t moves.members ∧ μ ∈ (sys.equivalents t c).members := by
  have state := (played.masked member).1
  have known := sys.equivalents_state_set (t := t) around.reads
  have likes : ∀ ρ, ρ ∈ (sys.equivalents t c).members ↔ ρ ∈ sys.statesMask.members ∧ t.Same μ ρ :=
    fun ρ => @Splitter.mem_equivalents_around ⟨sys, t, .group⟩ t c ρ μ wf of around state
  have here := (likes μ).mpr ⟨state, .refl t μ⟩
  refine ⟨⟨known, fun ρ there σ => ?_, ⟨μ, member, here⟩, fun a offers => listed_played wf of played known listed offers⟩, here⟩
  have same := ((likes ρ).mp there).2
  rw [likes]
  exact and_congr_right fun _ => ⟨same.symm.trans, same.trans⟩

-- Observations are found unless a list of actions has no room, and each holds what is listed of its actions.
theorem observations_spec (fuel : Nat) (played : sys.PlayedSet moves) (enough : stateCount sys moves < fuel) :
    (∃ os, observations sys t fuel moves = .ok os ∧ Observed sys t moves.members os ∧
      ∀ o ∈ os, Space.listing (offered sys t moves o.states) t.actionBits = .ok o.actions) ∨
    (observations sys t fuel moves = .error (.space .noRoom) ∧ ¬ Fits sys t moves) := by
  induction fuel generalizing moves with
  | zero => omega
  | succ fuel ih =>
      unfold observations
      cases none : moves.isEmpty with
      | true =>
          rw [if_pos rfl, Region.is_empty_members.mp none]
          exact .inl ⟨[], rfl, ⟨by simp, .nil, by simp⟩, by simp⟩
      | false =>
          obtain ⟨μ, member, c, picked, around⟩ :=
            @Splitter.pick_state_spec ⟨sys, t, .group⟩ moves wf played (Region.not_empty_members.mp none)
          rw [if_neg Bool.false_ne_true]
          cases listed : Space.listing (offered sys t moves (sys.equivalents t c)) t.actionBits with
          | error e =>
              obtain ⟨rfl, crowded⟩ := Space.listing_error listed
              refine .inr ⟨bind_ok picked ?_, fun fits => crowded ?_⟩
              · dsimp only
                rw [listed]
                rfl
              · rw [equivalents_around wf of around (played.masked member).1]
                exact fits μ member
          | ok all =>
              obtain ⟨first, here⟩ := observation_fits wf of played around member listed
              have less := state_count_less wf played.reads first.known member here
              have listedSo : (Space.listing (offered sys t moves (sys.equivalents t c)) t.actionBits).mapError Error.space = .ok all := by
                rw [listed]
                rfl
              obtain ⟨os, others, later, lists⟩ | ⟨failed, crowded⟩ := ih (played.diff (first.known.reads.mono sys.state_subset_move))
                (lt_of_lt_of_le less (Nat.le_of_lt_succ enough))
              · rw [Region.members_diff] at later
                refine .inl ⟨_, bind_ok picked (bind_ok listedSo (bind_ok others rfl)), .cons first later, ?_⟩
                refine List.forall_mem_cons.mpr ⟨listed, fun o known => ?_⟩
                rw [← lists o known, offered_apart fun ρ inside there => first.apart (later.fits o known) there inside]
              · refine .inr ⟨bind_ok picked (bind_ok listedSo ?_), fun fits => crowded (fits.diff wf of played first)⟩
                rw [failed]
                rfl

theorem observations_yield (played : sys.PlayedSet moves) : Yields (observations sys t (Nat.pow 2 sys.stateBits.length + 1) moves) fun os =>
    Observed sys t moves.members os ∧ ∀ o ∈ os, Space.listing (offered sys t moves o.states) t.actionBits = .ok o.actions := by
  intro os listed
  obtain ⟨_, listedToo, seen⟩ | ⟨failed, _⟩ := observations_spec wf of _ played (state_count_bound sys moves)
  · exact Except.ok.inj (listedToo.symm.trans listed) ▸ seen
  · cases failed.symm.trans listed

theorem observations_error (played : sys.PlayedSet moves) {e : Error}
    (failed : observations sys t (Nat.pow 2 sys.stateBits.length + 1) moves = .error e) : e = .space .noRoom ∧ ¬ Fits sys t moves := by
  obtain ⟨_, listed, _⟩ | ⟨failedSo, crowded⟩ := observations_spec wf of _ played (state_count_bound sys moves)
  · cases listed.symm.trans failed
  · exact ⟨Except.error.inj (failed.symm.trans failedSo), crowded⟩

section

variable {os : List Observation} (seen : Observed sys t moves.members os) (played : sys.PlayedSet moves)
  (lists : ∀ o ∈ os, Space.listing (offered sys t moves o.states) t.actionBits = .ok o.actions) (counts : Counts sys t moves)
  {o : Observation} (known : o ∈ os)

include seen played lists counts known

theorem observed_room : Space.Fits (offered sys t moves o.states) t.actionBits := by
  have fits := seen.fits o known
  obtain ⟨μ, member, here⟩ := fits.meets
  have states : o.states = sys.equivalents t (sys.only μ) := Region.members_injective (Set.ext fun ρ => by
    rw [fits.alike μ here,
      @Splitter.mem_equivalents_around ⟨sys, t, .group⟩ t (sys.only μ) ρ μ wf of (only_around sys μ) (played.masked member).1])
  refine Space.listing_counts (lists o known) ?_
  rw [states]
  exact counts μ member

theorem observed_complete : o.Complete t moves.members :=
  listed_complete wf of played (seen.fits o known).known (lists o known) (observed_room wf of seen played lists counts known)

end

end

end Encoding

end Coalition
