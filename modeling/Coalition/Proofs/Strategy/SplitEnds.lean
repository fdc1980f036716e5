import Coalition.Proofs.Strategy.Split

-- Classes hold reachable states only, so that splitting a move at another state never sets it aside: it picks from an empty class, or
-- goes on for ever.

set_option autoImplicit false

namespace Coalition

theorem Enumeration.bind_fail {α β : Type} {e : Enumeration α} {f : α → Enumeration β} {failure : Error} (ends : e.error? = none)
    (some : ∃ a, a ∈ e.items) (each : ∀ a ∈ e.items, f a = .fail failure) : e.bind f = .fail failure := by
  cases e with
  | done =>
      obtain ⟨a, listed⟩ := some
      cases listed
  | fail error => cases ends
  | item a tail =>
      rw [bind, each a List.mem_cons_self]
      rfl

namespace System

variable {sys : System} {t : Team} {s r states : Region} {ρ : Valuation}

structure MoveSet (sys : System) (s : Region) : Prop where
  inside : s.members ⊆ sys.movesMask.members
  reads : s.Reads sys.moveBit

namespace MoveSet

theorem masked (known : sys.MoveSet s) (member : ρ ∈ s.members) : ρ ∈ sys.statesMask.members ∧ ρ ∈ sys.inputsMask.members := by
  have inside := known.inside member
  rwa [Frame.movesMask, Region.members_inter] at inside

theorem inter (known : sys.MoveSet s) (reads : r.Reads sys.moveBit) : sys.MoveSet (s.inter r) :=
  ⟨(Region.inter_subset_left s r).trans known.inside, known.reads.inter reads⟩

theorem diff (known : sys.MoveSet s) (reads : r.Reads sys.moveBit) : sys.MoveSet (s.diff r) := by
  refine ⟨?_, known.reads.diff reads⟩
  rw [Region.members_diff]
  exact Set.sdiff_subset.trans known.inside

theorem played (known : sys.MoveSet s) (reached : s.members ⊆ sys.reachable.members) : sys.PlayedSet s :=
  ⟨known.inside, reached, known.reads⟩

end MoveSet

theorem WellFormed.common_equivalents_reached (wf : sys.WellFormed) (of : t.Of sys) (reads : states.Reads sys.moveBit) :
    ∀ ρ ∈ (sys.commonEquivalents t states).members, ρ ∈ (sys.statesOf states).members ∨ ρ ∈ sys.reachable.members := by
  have reachReads := wf.reachable_state_set.reads.mono sys.state_subset_move
  refine (Region.fixpoint_induct (K := fun z => z.Reads sys.moveBit)
    (P := fun z => ∀ ρ ∈ z.members, ρ ∈ (sys.statesOf states).members ∨ ρ ∈ sys.reachable.members) (fun z known => ?_)
    (fun z known linked ρ member => ?_) (sys.states_of_state_set reads).moves fun ρ member => .inl member).2
  · show (((t.singles.map sys.unobserved).foldl _ z)).Reads sys.moveBit
    rw [← List.foldl_map (f := fun bits => (z.hide bits).inter sys.reachable) (g := Region.union)]
    refine Region.reads_fold_union known fun r listed => ?_
    obtain ⟨bits, _, rfl⟩ := List.mem_map.mp listed
    exact (known.hide_within bits).inter reachReads
  · obtain before | ⟨reached, _⟩ := (wf.mem_linked of known).mp member
    · exact linked ρ before
    · exact .inr reached

end System

namespace Splitter

variable {sp : Splitter} {w : Team} {c moves fixed : Region} {μ ρ : Valuation}

theorem pick_move_nowhere (nothing : moves.members = ∅) : sp.pickMove moves = .error (.space .emptyPick) := by
  have none : (sp.sys.movesOf moves).isEmpty = true := by
    rw [Region.is_empty_members, Frame.movesOf, Region.members_inter, Region.members_inter, nothing, Set.empty_inter, Set.empty_inter]
  unfold pickMove
  rw [Frame.pickMove, Region.pick, if_pos none]
  rfl

theorem has_two_actions_nowhere (nothing : moves.members = ∅) : sp.hasTwoActions w moves = .error (.space .emptyPick) := by
  unfold hasTwoActions
  rw [pick_move_nowhere nothing]
  rfl

def Tame (sp : Splitter) (moves : Region) : Prop :=
  moves.members ⊆ sp.sys.reachable.members ∨ sp.semantics = .individual ∧ sp.team.members = []

-- The split is led astray: classes of reachable states are set aside, until the least move is at a state that is not reachable, while
-- some moves that look like it leave a choice.
inductive Misled (sp : Splitter) : Region → Prop
  | here {moves c : Region} : sp.semantics = .individual → sp.pickMove moves = .ok c → ¬ c.members ⊆ sp.sys.reachable.members →
      sp.isConflicting (moves.inter (sp.classOfMove c)) = .ok true → Misled sp moves
  | later {moves c : Region} : sp.pickMove moves = .ok c → c.members ⊆ sp.sys.reachable.members →
      Misled sp (moves.diff (moves.inter (sp.classOfMove c))) → Misled sp moves

namespace Misled

theorem individual (misled : sp.Misled moves) : sp.semantics = .individual := by
  induction misled with
  | here alone => exact alone
  | later _ _ _ ih => exact ih

theorem some (misled : sp.Misled moves) : sp.team.members ≠ [] := by
  induction misled with
  | here alone _ _ conflict =>
      intro none
      rw [isConflicting, alone, Team.singles, none] at conflict
      exact Bool.noConfusion (Except.ok.inj conflict)
  | later _ _ _ ih => exact ih

theorem nonempty (misled : sp.Misled moves) : moves.members.Nonempty := by
  by_contra none
  have stuck : sp.pickMove moves = .error (.space .emptyPick) := pick_move_nowhere (Set.not_nonempty_iff_eq_empty.mp none)
  cases misled with
  | here _ picked => rw [stuck] at picked; cases picked
  | later picked => rw [stuck] at picked; cases picked

theorem past (picked : sp.pickMove moves = .ok c) (reached : c.members ⊆ sp.sys.reachable.members) :
    sp.Misled moves ↔ sp.Misled (moves.diff (moves.inter (sp.classOfMove c))) := by
  refine ⟨fun misled => ?_, fun misled => .later picked reached misled⟩
  cases misled with
  | here _ pickedToo lost =>
      obtain rfl := Except.ok.inj (picked.symm.trans pickedToo)
      exact absurd reached lost
  | later pickedToo _ misled =>
      obtain rfl := Except.ok.inj (picked.symm.trans pickedToo)
      exact misled

theorem astray (picked : sp.pickMove moves = .ok c) (lost : ¬ c.members ⊆ sp.sys.reachable.members) (misled : sp.Misled moves) :
    sp.isConflicting (moves.inter (sp.classOfMove c)) = .ok true := by
  cases misled with
  | here _ pickedToo _ conflict =>
      obtain rfl := Except.ok.inj (picked.symm.trans pickedToo)
      exact conflict
  | later pickedToo reached _ =>
      obtain rfl := Except.ok.inj (picked.symm.trans pickedToo)
      exact absurd reached lost

end Misled

section

variable (wf : sp.sys.WellFormed)

include wf

theorem mem_lookalikes (of : w.Of sp.sys) (known : sp.sys.MoveSet moves) (member : μ ∈ moves.members) (around : sp.sys.Around c μ) :
    ρ ∈ (moves.inter (sp.classOf w c)).members ↔ ρ ∈ moves.members ∧ ρ ∈ sp.sys.reachable.members ∧ w.Same μ ρ := by
  rw [Region.members_inter, Set.mem_inter_iff, mem_class_around wf of around (known.masked member).1]

theorem lookalikes_played (of : w.Of sp.sys) (known : sp.sys.MoveSet moves) (member : μ ∈ moves.members) (around : sp.sys.Around c μ) :
    sp.sys.PlayedSet (moves.inter (sp.classOf w c)) :=
  (known.inter (reads_class wf w around.reads)).played fun _ inside => ((mem_lookalikes wf of known member around).mp inside).2.1

-- A move at a state that is not reachable leaves the split for one agent with no way on.
theorem split_agent_lost (of : w.Of sp.sys) (fuel : Nat) (known : sp.sys.MoveSet moves) (inside : μ ∈ moves.members)
    (lost : μ ∉ sp.sys.reachable.members) : sp.splitAgent w .empty fuel moves = .fail .endless := by
  induction fuel generalizing moves with
  | zero => rfl
  | succ fuel ih =>
      obtain ⟨σ, member, c, picked, around⟩ := pick_state_within wf (fun _ here => (known.masked here).1) known.reads ⟨μ, inside⟩
      have hereKnown := known.inter (reads_class wf w around.reads)
      have away : μ ∈ (moves.diff (moves.inter (sp.classOf w c))).members := by
        rw [Region.members_diff]
        exact ⟨inside, fun here => lost ((mem_lookalikes wf of known member around).mp here).2.1⟩
      have later := ih (known.diff hereKnown.reads) away
      rw [splitAgent, Region.not_empty_members.mpr ⟨μ, inside⟩]
      simp only [Bool.false_eq_true, if_false, picked, Enumeration.ofExcept]
      split
      · rfl
      · rename_i some
        have nothing : sp.sys.PlayedSet .empty := ⟨by simp, by simp, Region.reads_empty _⟩
        have bucketed := buckets_spec wf of nothing (by simp [Agreeing]) sp.bound (lookalikes_played wf of known member around)
          (fun ρ here σ there => Team.Same.trans (Team.Same.symm ((mem_lookalikes wf of known member around).mp here).2.2)
            ((mem_lookalikes wf of known member around).mp there).2.2) (System.move_count_bound sp.semantics sp.team _)
        obtain ⟨ρ, here⟩ := Region.not_empty_members.mp (Bool.not_eq_true _ ▸ some)
        obtain ⟨bucket, listed, _⟩ := bucketed.complete {ρ} (Set.singleton_subset_iff.mpr here) ⟨ρ, rfl⟩ (by
          rintro x viewer τ (rfl | ⟨⟨⟩⟩) υ (rfl | ⟨⟨⟩⟩) _
          exact Team.Plays.refl x _)
        -- whichever bucket is chosen here, the lost move is still in what is left
        have stuck := Enumeration.bind_fail bucketed.ends ⟨bucket, listed⟩
          (f := fun bucket => (sp.splitAgent w .empty fuel (moves.diff (moves.inter (sp.classOf w c)))).map (·.union bucket))
          fun a _ => by rw [later]; rfl
        cases found : sp.buckets w .empty sp.bound (moves.inter (sp.classOf w c)) with
        | done => rw [found] at listed; cases listed
        | fail e => rw [found] at listed; cases listed
        | item first tail =>
            rw [found] at stuck
            exact stuck

theorem split_agents_lost (teams : List Team) (some : teams ≠ []) (each : ∀ x ∈ teams, x.Of sp.sys) (known : sp.sys.MoveSet moves)
    (inside : μ ∈ moves.members) (lost : μ ∉ sp.sys.reachable.members) : sp.splitAgents .empty moves teams = .fail .endless := by
  induction teams with
  | nil => exact absurd rfl some
  | cons agent others ih =>
      cases others with
      | nil =>
          have stuck := split_agent_lost wf (each agent List.mem_cons_self) sp.bound known inside lost
          rw [splitAgents, splitAgents, Enumeration.single, Enumeration.bind, stuck]
          rfl
      | cons next rest =>
          rw [splitAgents, ih (List.cons_ne_nil _ _) fun x listed => each x (List.mem_cons_of_mem _ listed)]
          rfl

-- An agent never finds a class without a choice where it leaves a move in no class.
theorem conflicts_in_lost (of : w.Of sp.sys) (fuel : Nat) (known : sp.sys.MoveSet moves) (inside : μ ∈ moves.members)
    (lost : μ ∉ sp.sys.reachable.members) (enough : sp.sys.moveCount moves < fuel) :
    sp.conflictsIn w fuel moves = .ok true ∨ sp.conflictsIn w fuel moves = .error (.space .emptyPick) := by
  induction fuel generalizing moves with
  | zero => omega
  | succ fuel ih =>
      obtain ⟨σ, member, c, picked, around, _⟩ := pick_move_of known.inside ⟨μ, inside⟩
      have lookalikes := fun ρ => mem_lookalikes (ρ := ρ) wf of known member around
      rw [conflicts_in_of_picked fuel (Region.not_empty_members.mpr ⟨μ, inside⟩) picked]
      rcases (moves.inter (sp.classOf w c)).members.eq_empty_or_nonempty with nothing | ⟨ρ, here⟩
      · rw [has_two_actions_nowhere nothing]
        exact .inr rfl
      · obtain ⟨two, decided, _⟩ := has_two_actions_spec wf of (lookalikes_played wf of known member around) ⟨ρ, here⟩
        rw [decided]
        cases two with
        | true => exact .inl rfl
        | false =>
            have restKnown := known.diff (known.inter (reads_class wf w around.reads)).reads
            have away : μ ∈ (moves.diff (moves.inter (sp.classOf w c))).members := by
              rw [Region.members_diff]
              exact ⟨inside, fun within => lost ((lookalikes μ).mp within).2.1⟩
            have less := System.move_count_less restKnown.reads known.reads (by rw [Region.members_diff]; exact Set.sdiff_subset)
              ((lookalikes ρ).mp here).1 (by rw [Region.members_diff]; exact fun outside => outside.2 here)
            exact ih restKnown away (by omega)

variable (of : sp.team.Of sp.sys)

include of

theorem class_reached (around : sp.sys.Around c μ) (state : μ ∈ sp.sys.statesMask.members) :
    (sp.classOfMove c).Reads sp.sys.stateBit ∧
      (sp.semantics = .individual ∨ μ ∈ sp.sys.reachable.members → μ ∈ (sp.classOfMove c).members) ∧
      (sp.semantics = .group ∨ μ ∈ sp.sys.reachable.members → (sp.classOfMove c).members ⊆ sp.sys.reachable.members) ∧
      (sp.semantics = .group → ∀ ρ ∈ (sp.classOfMove c).members, sp.team.Same μ ρ) := by
  unfold classOfMove
  cases mode : sp.semantics with
  | group =>
      have known := fun ρ => mem_class_around (ρ := ρ) wf of around state
      refine ⟨(System.equivalents_state_set around.reads).reads.inter wf.reachable_state_set.reads, ?_,
        fun _ ρ here => ((known ρ).mp here).1, fun _ ρ here => ((known ρ).mp here).2⟩
      rintro (bad | reached)
      · cases bad
      · exact (known μ).mpr ⟨reached, .refl _ μ⟩
  | individual =>
      obtain ⟨known, above, _⟩ := wf.common_equivalents_spec of around.reads
      have own := fun ρ => Frame.mem_states_of (s := c) wf.laid around.reads (ρ := ρ)
      refine ⟨known.reads, fun _ => above ((own μ).mpr ⟨state, μ, around.itself, rfl⟩), ?_, nofun⟩
      rintro (bad | reached) ρ member
      · cases bad
      · obtain start | linked := wf.common_equivalents_reached of around.reads ρ member
        · obtain ⟨_, σ, inside, same⟩ := (own ρ).mp start
          exact (Frame.mem_of_state wf.reachable_state_set.reads ((around.states σ inside).symm.trans same)).mp reached
        · exact linked

theorem conflicting_lost (alone : sp.semantics = .individual) (some : sp.team.members ≠ []) (known : sp.sys.MoveSet moves)
    (inside : μ ∈ moves.members) (lost : μ ∉ sp.sys.reachable.members) :
    sp.isConflicting moves = .ok true ∨ sp.isConflicting moves = .error (.space .emptyPick) := by
  obtain ⟨a, others, listed⟩ := List.exists_cons_of_ne_nil some
  have single : (⟨[a]⟩ : Team).Of sp.sys := Team.single_of of (by simp [Team.singles, listed])
  have first := conflicts_in_lost wf single sp.bound known inside lost (System.move_count_bound sp.semantics sp.team moves)
  rw [isConflicting, alone, Team.singles, listed, List.map_cons]
  dsimp only
  rw [anyConflicts]
  rcases first with true | stuck
  · rw [true]
    exact .inl rfl
  · rw [stuck]
    exact .inr rfl

end

-- What is left when some classes were set aside: nothing is lost that would lead astray.
structure Past (sp : Splitter) (moves rest : Region) : Prop where
  known : sp.sys.MoveSet rest
  less : sp.sys.moveCount rest < sp.sys.moveCount moves
  misled : sp.Misled moves ↔ sp.Misled rest
  tame : sp.Tame rest → sp.Tame moves

theorem Past.trans {rest later : Region} (first : sp.Past moves rest) (second : sp.Past rest later) : sp.Past moves later :=
  ⟨second.known, second.less.trans first.less, first.misled.trans second.misled, fun tame => first.tame (second.tame tame)⟩

structure LeavesChoice (sp : Splitter) (here : Region) : Prop where
  some : here.members.Nonempty
  played : sp.sys.PlayedSet here
  alike : sp.semantics = .group → ∀ ρ ∈ here.members, ∀ σ ∈ here.members, sp.team.Same ρ σ
  somebody : ¬ (sp.semantics = .individual ∧ sp.team.members = [])

-- How the look at the class of the least move ends: the class is set aside, or leaves a choice, or leads astray, or has nothing to pick.
inductive ClassEnds (sp : Splitter) (moves here : Region) : Except Error Bool → Prop
  | aside : sp.Past moves (moves.diff here) → ClassEnds sp moves here (.ok false)
  | choice : sp.LeavesChoice here → sp.Past moves (moves.diff here) → ClassEnds sp moves here (.ok true)
  | astray {lost : Valuation} : sp.sys.MoveSet here → lost ∈ here.members → lost ∉ sp.sys.reachable.members → sp.Misled moves →
      ClassEnds sp moves here (.ok true)
  | nothing : ¬ sp.Misled moves → ClassEnds sp moves here (.error (.space .emptyPick))

inductive PartingEnds (sp : Splitter) (common moves : Region) : Except Error Parting → Prop
  | settled {p : Parting} : p.conflicting = .empty → p.common.members = common.members ∪ moves.members → ¬ sp.Misled moves →
      sp.Tame moves → PartingEnds sp common moves (.ok p)
  | choice {p : Parting} : sp.LeavesChoice p.conflicting → sp.Past moves p.rest → PartingEnds sp common moves (.ok p)
  | astray {p : Parting} {lost : Valuation} : sp.sys.MoveSet p.conflicting → lost ∈ p.conflicting.members →
      lost ∉ sp.sys.reachable.members → sp.Misled moves → PartingEnds sp common moves (.ok p)
  | nothing : ¬ sp.Misled moves → PartingEnds sp common moves (.error (.space .emptyPick))

theorem PartingEnds.past {common more rest : Region} {result : Except Error Parting} (past : sp.Past moves rest)
    (whole : more.members ∪ rest.members = common.members ∪ moves.members) (ends : sp.PartingEnds more rest result) :
    sp.PartingEnds common moves result := by
  cases ends with
  | settled done all clear tame => exact .settled done (all.trans whole) (mt past.misled.mp clear) (past.tame tame)
  | choice choice later => exact .choice choice (past.trans later)
  | astray known inside lost misled => exact .astray known inside lost (past.misled.mpr misled)
  | nothing clear => exact .nothing (mt past.misled.mp clear)

theorem nobody_conflicts (alone : sp.semantics = .individual) (none : sp.team.members = []) (here : Region) :
    sp.isConflicting here = .ok false := by
  rw [isConflicting, alone, Team.singles, none]
  rfl

theorem class_known (known : sp.sys.MoveSet moves) {states : Region} (reads : states.Reads sp.sys.stateBit) :
    sp.sys.MoveSet (moves.inter states) ∧ sp.sys.MoveSet (moves.diff (moves.inter states)) ∧
      ((moves.inter states).members.Nonempty → sp.sys.moveCount (moves.diff (moves.inter states)) < sp.sys.moveCount moves) := by
  have hereKnown := known.inter (reads.mono sp.sys.state_subset_move)
  have restKnown := known.diff hereKnown.reads
  refine ⟨hereKnown, restKnown, ?_⟩
  rintro ⟨ρ, inside⟩
  refine System.move_count_less restKnown.reads known.reads ?_ (Region.inter_subset_left _ _ inside) ?_ <;> rw [Region.members_diff]
  · exact Set.sdiff_subset
  · exact fun outside => outside.2 inside

section

variable (wf : sp.sys.WellFormed) (of : sp.team.Of sp.sys)

include wf of

theorem class_ends_played {here : Region} (some : here.members.Nonempty) (played : sp.sys.PlayedSet here)
    (alike : sp.semantics = .group → ∀ ρ ∈ here.members, ∀ σ ∈ here.members, sp.team.Same ρ σ)
    (past : sp.Past moves (moves.diff here)) : sp.ClassEnds moves here (sp.isConflicting here) := by
  obtain ⟨conflict, decided, _⟩ := is_conflicting_spec wf of played some alike
  cases conflict with
  | false => exact decided ▸ .aside past
  | true =>
      rw [decided]
      refine .choice ⟨some, played, alike, fun ⟨alone, nobody⟩ => ?_⟩ past
      rw [nobody_conflicts alone nobody] at decided
      exact Bool.noConfusion (Except.ok.inj decided)

theorem class_ends_alone {here : Region} (known : sp.sys.MoveSet here) (itself : μ ∈ here.members) (away : μ ∉ sp.sys.reachable.members)
    (picked : sp.pickMove moves = .ok c) (lost : ¬ c.members ⊆ sp.sys.reachable.members) (same : here = moves.inter (sp.classOfMove c))
    (alone : sp.semantics = .individual) (somebody : sp.team.members ≠ []) : sp.ClassEnds moves here (sp.isConflicting here) := by
  obtain conflict | stuck := conflicting_lost wf of alone somebody known itself away
  · rw [conflict]
    exact .astray known itself away (.here alone picked lost (same ▸ conflict))
  · rw [stuck]
    refine .nothing fun misled => ?_
    have conflict := misled.astray picked lost
    rw [← same, stuck] at conflict
    cases conflict

theorem class_ends (known : sp.sys.MoveSet moves) (member : μ ∈ moves.members) (around : sp.sys.Around c μ)
    (picked : sp.pickMove moves = .ok c) :
    sp.ClassEnds moves (moves.inter (sp.classOfMove c)) (sp.isConflicting (moves.inter (sp.classOfMove c))) := by
  obtain ⟨classReads, own, reached, alike⟩ := class_reached wf of around (known.masked member).1
  obtain ⟨hereKnown, restKnown, less⟩ := class_known known classReads
  have inClass : ∀ ρ ∈ (moves.inter (sp.classOfMove c)).members, ρ ∈ (sp.classOfMove c).members :=
    Region.inter_subset_right _ _
  have itself : μ ∈ (sp.classOfMove c).members → μ ∈ (moves.inter (sp.classOfMove c)).members := fun inside => by
    rw [Region.members_inter]
    exact ⟨member, inside⟩
  have cell : c.members ⊆ sp.sys.reachable.members ↔ μ ∈ sp.sys.reachable.members := by
    refine ⟨fun le => le around.itself, fun inside ρ listed => ?_⟩
    exact (Frame.mem_of_state wf.reachable_state_set.reads (around.states ρ listed).symm).mp inside
  have pairs : sp.semantics = .group → ∀ ρ ∈ (moves.inter (sp.classOfMove c)).members,
      ∀ σ ∈ (moves.inter (sp.classOfMove c)).members, sp.team.Same ρ σ := fun group ρ first σ second =>
    (alike group ρ (inClass ρ first)).symm.trans (alike group σ (inClass σ second))
  -- everything hangs on whether the picked move is at a reachable state: only then is it sure to be in its own class
  by_cases here : μ ∈ sp.sys.reachable.members
  · have inside := (Region.inter_subset_right moves (sp.classOfMove c)).trans (reached (.inr here))
    have some : (moves.inter (sp.classOfMove c)).members.Nonempty := ⟨μ, itself (own (.inr here))⟩
    refine class_ends_played wf of some (hereKnown.played inside) pairs
      ⟨restKnown, less some, Misled.past picked (cell.mpr here), Or.imp_left fun rest ρ listed => ?_⟩
    by_cases first : ρ ∈ (moves.inter (sp.classOfMove c)).members
    · exact inside first
    · exact rest (by rw [Region.members_diff]; exact ⟨listed, first⟩)
  -- a group looks at reachable states only, an agent of its own at whatever it cannot tell from the move
  · obtain mode | mode : sp.semantics = .group ∨ sp.semantics = .individual := by cases sp.semantics <;> simp
    · have clear : ∀ {rest : Region}, ¬ sp.Misled rest := fun misled => Semantics.noConfusion (mode.symm.trans misled.individual)
      have inside := (Region.inter_subset_right moves (sp.classOfMove c)).trans (reached (.inl mode))
      rcases (moves.inter (sp.classOfMove c)).members.eq_empty_or_nonempty with nothing | some
      · have stuck : sp.isConflicting (moves.inter (sp.classOfMove c)) = .error (.space .emptyPick) := by
          rw [isConflicting, mode]
          exact has_two_actions_nowhere nothing
        exact stuck ▸ .nothing clear
      · refine class_ends_played wf of some (hereKnown.played inside) pairs
          ⟨restKnown, less some, iff_of_false clear clear, Or.imp_left fun rest => ?_⟩
        exact absurd (rest (by rw [Region.members_diff]; exact ⟨member, fun first => here (inside first)⟩)) here
    · have inside := itself (own (.inl mode))
      by_cases nobody : sp.team.members = []
      · have clear : ∀ {rest : Region}, ¬ sp.Misled rest := fun misled => misled.some nobody
        rw [nobody_conflicts mode nobody]
        exact .aside ⟨restKnown, less ⟨μ, inside⟩, iff_of_false clear clear, fun _ => .inr ⟨mode, nobody⟩⟩
      · exact class_ends_alone wf of hereKnown inside here picked (mt cell.mp here) rfl mode nobody

theorem part_ends (fuel : Nat) (common : Region) (known : sp.sys.MoveSet moves) (enough : sp.sys.moveCount moves < fuel) :
    sp.PartingEnds common moves (sp.part .empty fuel common moves) := by
  induction fuel generalizing common moves with
  | zero => omega
  | succ fuel ih =>
      cases none : moves.isEmpty with
      | true =>
          have nothing := Region.is_empty_members.mp none
          rw [part_of_empty common fuel none]
          refine .settled rfl (by rw [nothing, Set.union_empty]) (fun misled => ?_) (.inl (nothing ▸ Set.empty_subset _))
          exact Set.not_nonempty_empty (nothing ▸ misled.nonempty)
      | false =>
          obtain ⟨μ, member, c, picked, around, _⟩ := pick_move_of known.inside (Region.not_empty_members.mp none)
          have never : (sp.classOfMove c).meets .empty = false :=
            Bool.eq_false_iff.mpr fun meets => by simpa using Region.meets_members.mp meets
          rw [part_of_picked _ common fuel none picked]
          simp only [never, Bool.or_false]
          have looked := class_ends wf of known member around picked
          generalize sp.isConflicting (moves.inter (sp.classOfMove c)) = result at looked
          cases looked with
          | aside past =>
              have less := past.less
              refine PartingEnds.past past ?_ (ih (common.union (moves.inter (sp.classOfMove c))) past.known (by omega))
              rw [Region.members_union, Region.members_diff, Set.union_assoc, Set.union_sdiff_cancel (Region.inter_subset_left _ _)]
          | choice choice past => exact .choice choice past
          | astray hereKnown inside away misled => exact .astray hereKnown inside away misled
          | nothing clear => exact .nothing clear

-- A split goes astray, or picks from nothing, and yields nothing then; or it ends.
theorem split_from_ends (fuel : Nat) (known : sp.sys.MoveSet moves) (enough : sp.sys.moveCount moves < fuel) :
    sp.splitFrom .empty fuel moves = .fail .endless ∧ sp.Misled moves ∨
      sp.splitFrom .empty fuel moves = .fail (.space .emptyPick) ∧ ¬ sp.Misled moves ∨
      (sp.splitFrom .empty fuel moves).error? = none ∧ ¬ sp.Misled moves ∧ (moves.members ⊆ sp.sys.reachable.members ∨
        sp.semantics = .individual ∧ sp.team.members = [] ∧
          ∃ s, sp.splitFrom .empty fuel moves = .single s ∧ s.members = moves.members) := by
  induction fuel generalizing moves with
  | zero => omega
  | succ fuel ih =>
      cases none : moves.isEmpty with
      | true =>
          have nothing := Region.is_empty_members.mp none
          have same : sp.splitFrom .empty (fuel + 1) moves = .single moves := split_from_of_empty fuel none
          refine .inr (.inr ⟨same ▸ rfl, fun misled => ?_, .inl (nothing ▸ Set.empty_subset _)⟩)
          exact Set.not_nonempty_empty (nothing ▸ misled.nonempty)
      | false =>
          have step : sp.splitFrom .empty (fuel + 1) moves = .ofExcept (sp.part .empty sp.bound .empty moves) fun p =>
              if p.conflicting.isEmpty then .single p.common
              else (sp.splitClass .empty p.conflicting).bind fun choice =>
                (sp.splitFrom .empty fuel p.rest).map fun s => (p.common.union s).union choice := by
            rw [splitFrom, none]
            rfl
          have parted := part_ends wf of sp.bound .empty known (System.move_count_bound sp.semantics sp.team moves)
          rw [step]
          generalize sp.part .empty sp.bound .empty moves = result at parted
          cases parted with
          | @settled p done all clear tame =>
              have only : p.conflicting.isEmpty = true := by rw [done]; rfl
              simp only [Enumeration.ofExcept, only, if_true]
              refine .inr (.inr ⟨rfl, clear, tame.imp_right fun lone => ⟨lone.1, lone.2, p.common, rfl, ?_⟩⟩)
              rw [all, Region.members_empty, Set.empty_union]
          | @choice p choice past =>
              have nothing : sp.sys.PlayedSet .empty := ⟨by simp, by simp, Region.reads_empty _⟩
              have free : Agreeing (sp.team.viewers sp.semantics) Region.empty.members := by simp [Agreeing]
              have choices := split_class_spec wf nothing of free choice.played choice.alike
              have stuck : ∀ {failure : Error}, sp.splitFrom .empty fuel p.rest = .fail failure →
                  ((sp.splitClass .empty p.conflicting).bind fun choice =>
                    (sp.splitFrom .empty fuel p.rest).map fun s => (p.common.union s).union choice) = .fail failure := fun failed =>
                Enumeration.bind_fail choices.ends (choices.some free) fun a _ => by rw [failed]; rfl
              have less := past.less
              simp only [Enumeration.ofExcept, Region.not_empty_members.mpr choice.some, Bool.false_eq_true, if_false]
              obtain ⟨failed, misled⟩ | ⟨failed, clear⟩ | ⟨ends, clear, tame⟩ := ih past.known (by omega)
              · exact .inl ⟨stuck failed, past.misled.mpr misled⟩
              · exact .inr (.inl ⟨stuck failed, mt past.misled.mp clear⟩)
              · refine .inr (.inr ⟨?_, mt past.misled.mp clear, .inl ?_⟩)
                · exact (Enumeration.bind_spec choices.ends fun choice _ => by rw [Enumeration.error_map, ends]).1
                · exact (past.tame (tame.imp_right fun whole => ⟨whole.1, whole.2.1⟩)).resolve_right choice.somebody
          | @astray p lost known inside away misled =>
              obtain ⟨a, others, listed⟩ := List.exists_cons_of_ne_nil misled.some
              have failed : sp.splitClass .empty p.conflicting = .fail .endless := by
                rw [splitClass, misled.individual]
                exact split_agents_lost wf sp.team.singles (by simp [Team.singles, listed])
                  (fun x viewer => Team.single_of of viewer) known inside away
              simp only [Enumeration.ofExcept, Region.not_empty_members.mpr ⟨lost, inside⟩, Bool.false_eq_true, if_false, failed]
              exact .inl ⟨rfl, misled⟩
          | nothing clear => exact .inr (.inl ⟨rfl, clear⟩)

end

end Splitter

namespace System

variable {sys : System} {t : Team} {moves : Region}

/-- **Splitting any set of moves** yields all maximal uniform strategies, or ends in the error of an empty pick with none, unless it is led
astray: then it goes on for ever with none. A group is never led astray, nor is anybody by moves at reachable states. -/
theorem split_ends_unless_misled {d : Description} (built : d.build = .ok sys) {names : List String} (found : sys.team names = .ok t)
    (semantics : Semantics) (reads : moves.Reads sys.moveBit) :
    (¬ (Splitter.mk sys t semantics).Misled (moves.inter sys.movesMask) →
      (Splitter.mk sys t semantics).split moves .empty = .fail (.space .emptyPick) ∨
        Parts sys (t.viewers semantics) ∅ (moves.inter sys.movesMask).members ((Splitter.mk sys t semantics).split moves .empty)) ∧
    ((Splitter.mk sys t semantics).Misled (moves.inter sys.movesMask) →
      (Splitter.mk sys t semantics).split moves .empty = .fail .endless) ∧
    (semantics = .group ∨ (moves.inter sys.movesMask).members ⊆ sys.reachable.members →
      ¬ (Splitter.mk sys t semantics).Misled (moves.inter sys.movesMask)) := by
  have wf := d.build_well_formed _ built
  obtain ⟨of, _⟩ := team_spec found
  let sp : Splitter := ⟨sys, t, semantics⟩
  have maskReads : sys.movesMask.Reads sys.moveBit :=
    (sys.reads_states_mask.mono sys.state_subset_move).inter (sys.reads_inputs_mask.mono sys.input_subset_move)
  have known : sys.MoveSet (moves.inter sys.movesMask) := ⟨Region.inter_subset_right _ _, reads.inter maskReads⟩
  have same : sp.split moves .empty = sp.splitFrom .empty sp.bound (moves.inter sys.movesMask) := by
    have nothing : Region.empty.inter sys.movesMask = .empty := Region.members_injective (by simp)
    unfold Splitter.split
    dsimp only
    rw [nothing]
  have played : (moves.inter sys.movesMask).members ⊆ sys.reachable.members →
      Parts sys (t.viewers semantics) ∅ (moves.inter sys.movesMask).members (sp.split moves .empty) := by
    intro reached
    have spec := @Splitter.split_free_spec sp _ wf of (known.played reached)
    rwa [show sp.split (moves.inter sys.movesMask) .empty = sp.split moves .empty from by
      unfold Splitter.split
      dsimp only
      rw [@Splitter.masked_played sp _ (known.played reached)]] at spec
  have ends := @Splitter.split_from_ends sp _ wf of sp.bound known (move_count_bound semantics t _)
  rw [← same] at ends
  refine ⟨fun clear => ?_, fun misled => ?_, ?_⟩
  · obtain ⟨_, misled⟩ | ⟨failed, _⟩ | ⟨_, _, reached | ⟨alone, nobody, s, only, whole⟩⟩ := ends
    · exact absurd misled clear
    · exact .inl failed
    · exact .inr (played reached)
    · obtain rfl := Region.members_injective whole
      refine .inr (only ▸ @Splitter.parts_single sp _ _ _ _ (Set.Subset.refl _) known.reads ?_ (Set.Subset.refl _))
      have alone : semantics = .individual := alone
      have nobody : t.members = [] := nobody
      simp [Agreeing, alone, Team.viewers, Team.singles, nobody]
  · obtain ⟨failed, _⟩ | ⟨_, clear⟩ | ⟨_, clear, _⟩ := ends
    · exact failed
    · exact absurd misled clear
    · exact absurd misled clear
  · rintro (rfl | reached) misled
    · exact Semantics.noConfusion misled.individual
    · obtain ⟨failed, _⟩ | ⟨_, clear⟩ | ⟨_, clear, _⟩ := ends
      · have none := (played reached).ends
        rw [failed] at none
        cases none
      · exact clear misled
      · exact clear misled

def litLamp : Description where
  name := "lit lamp"
  vars := [⟨"on", ["no", "yes"]⟩]
  inputs := [⟨"press", ["no", "yes"]⟩]
  init := ["on = yes"]
  trans := ["next(on) = yes"]
  agents := [{ name := "hand", actions := ["press"] }]

theorem lit_lamp_misleads : ∃ sys t, litLamp.build = .ok sys ∧ sys.team ["hand"] = .ok t ∧
    (Splitter.mk sys t .individual).Misled (Region.univ.inter sys.movesMask) := by
  have works : (do
      let sys ← litLamp.build
      let t ← sys.team ["hand"]
      let c ← (Splitter.mk sys t .individual).pickMove (Region.univ.inter sys.movesMask)
      let two ← (Splitter.mk sys t .individual).isConflicting
        ((Region.univ.inter sys.movesMask).inter ((Splitter.mk sys t .individual).classOfMove c))
      return !c.subset sys.reachable && two).toOption = some true := by decide +kernel
  obtain ⟨sys, built, rest⟩ := ok_of_bind (ok_of_to_option works)
  obtain ⟨t, found, rest⟩ := ok_of_bind rest
  obtain ⟨c, picked, rest⟩ := ok_of_bind rest
  obtain ⟨two, conflict, rest⟩ := ok_of_bind rest
  obtain ⟨lost, rfl⟩ := Bool.and_eq_true_iff.mp (Except.ok.inj rest)
  refine ⟨sys, t, built, found, .here rfl picked (fun reached => ?_) conflict⟩
  rw [Region.members_subset.mpr reached] at lost
  cases lost

theorem split_ends_unless_misled_lit_lamp : ∃ sys t, litLamp.build = .ok sys ∧ sys.team ["hand"] = .ok t ∧
    (Splitter.mk sys t .individual).split .univ .empty = .fail .endless ∧
    ((Splitter.mk sys t .group).split .univ .empty = .fail (.space .emptyPick) ∨
      Parts sys (t.viewers .group) ∅ (Region.univ.inter sys.movesMask).members ((Splitter.mk sys t .group).split .univ .empty)) := by
  obtain ⟨sys, t, built, found, misled⟩ := lit_lamp_misleads
  have alone := split_ends_unless_misled built found .individual (Region.reads_univ sys.moveBit)
  have together := split_ends_unless_misled built found .group (Region.reads_univ sys.moveBit)
  exact ⟨sys, t, built, found, alone.2.1 misled, together.1 (together.2.2 (.inl rfl))⟩

end System

end Coalition
