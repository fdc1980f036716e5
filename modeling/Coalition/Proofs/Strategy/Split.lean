import Coalition.Proofs.Region.Pick
import Coalition.Proofs.Strategy.Uniform
import Coalition.Strategy.Split

-- Splitting finds the maximal uniform parts of some moves.

set_option autoImplicit false

namespace Coalition

namespace Enumeration

variable {α β : Type}

theorem bind_spec {e : Enumeration α} {f : α → Enumeration β} (ends : e.error? = none)
    (each : ∀ a ∈ e.items, (f a).error? = none) :
    (e.bind f).error? = none ∧ (e.bind f).items = e.items.flatMap fun a => (f a).items := by
  induction e with
  | done => exact ⟨rfl, rfl⟩
  | fail error => cases ends
  | item a tail ih =>
      have first := each a List.mem_cons_self
      obtain ⟨laterEnds, laterItems⟩ := ih () ends fun b listed => each b (List.mem_cons_of_mem _ listed)
      constructor
      · rw [bind, error_append, first, laterEnds]
        rfl
      · rw [bind, items_append, first, laterItems]
        rfl

end Enumeration

-- A set of moves in reachable states.
structure System.PlayedSet (sys : System) (s : Region) : Prop where
  inside : s.members ⊆ sys.movesMask.members
  reached : s.members ⊆ sys.reachable.members
  reads : s.Reads sys.moveBit

-- Nothing in one set looks the same as anything in the other to any viewer.
def Apart (viewers : List Team) (U V : Set Valuation) : Prop := ∀ w ∈ viewers, ∀ ρ ∈ U, ∀ σ ∈ V, ¬ w.Same ρ σ

section

variable {viewers : List Team} {U V W : Set Valuation}

theorem Apart.symm (apart : Apart viewers U V) : Apart viewers V U :=
  fun w viewer ρ here σ there same => apart w viewer σ there ρ here same.symm

theorem Apart.mono {U' V' : Set Valuation} (apart : Apart viewers U V) (left : U' ⊆ U) (right : V' ⊆ V) : Apart viewers U' V' :=
  fun w viewer ρ here σ there => apart w viewer ρ (left here) σ (right there)

theorem Apart.union (first : Apart viewers U V) (second : Apart viewers U W) : Apart viewers U (V ∪ W) := by
  rintro w viewer ρ here σ (there | there)
  · exact first w viewer ρ here σ there
  · exact second w viewer ρ here σ there

theorem Apart.left_union (first : Apart viewers U W) (second : Apart viewers V W) : Apart viewers (U ∪ V) W :=
  (first.symm.union second.symm).symm

theorem Agreeing.union (left : Agreeing viewers U) (right : Agreeing viewers V) (apart : Apart viewers U V) :
    Agreeing viewers (U ∪ V) := by
  rintro w viewer ρ (here | here) σ (there | there) same
  · exact left w viewer ρ here σ there same
  · exact absurd same (apart w viewer ρ here σ there)
  · exact absurd same.symm (apart w viewer σ there ρ here)
  · exact right w viewer ρ here σ there same

theorem Agreeing.both (left : Agreeing viewers (U ∪ W)) (right : Agreeing viewers (V ∪ W)) (apart : Apart viewers U V) :
    Agreeing viewers ((U ∪ V) ∪ W) := by
  rintro w viewer ρ ((here | here) | here) σ ((there | there) | there) same
  · exact left w viewer ρ (.inl here) σ (.inl there) same
  · exact absurd same (apart w viewer ρ here σ there)
  · exact left w viewer ρ (.inl here) σ (.inr there) same
  · exact absurd same.symm (apart w viewer σ there ρ here)
  · exact right w viewer ρ (.inl here) σ (.inl there) same
  · exact right w viewer ρ (.inl here) σ (.inr there) same
  · exact left w viewer ρ (.inr here) σ (.inl there) same
  · exact right w viewer ρ (.inr here) σ (.inl there) same
  · exact left w viewer ρ (.inr here) σ (.inr there) same

theorem Agreeing.spread {w : Team} {ρ : Valuation} (agreeing : Agreeing [w] W) (member : ρ ∈ W) (le : V ⊆ W)
    (like : ∀ σ ∈ U, w.Same ρ σ ∧ w.Plays ρ σ) : Agreeing [w] (U ∪ V) := by
  have pivot : ∀ σ ∈ V, w.Same ρ σ → w.Plays ρ σ := fun σ there => agreeing w (List.mem_singleton.mpr rfl) ρ member σ (le there)
  rintro x viewer σ (here | here) τ (there | there) same
  all_goals rw [List.mem_singleton.mp viewer] at same ⊢
  · exact (like σ here).2.symm.trans (like τ there).2
  · exact (like σ here).2.symm.trans (pivot τ there ((like σ here).1.trans same))
  · exact (pivot σ here ((like τ there).1.trans same.symm)).symm.trans (like τ there).2
  · exact agreeing w (List.mem_singleton.mpr rfl) σ (le here) τ (le there) same

theorem Agreeing.cons {w : Team} (first : Agreeing [w] U) (others : Agreeing viewers U) : Agreeing (w :: viewers) U := by
  intro x viewer
  rcases List.mem_cons.mp viewer with rfl | later
  · exact first x (List.mem_singleton.mpr rfl)
  · exact others x later

end

-- The listed parts of some moves are the maximal ones that agree with the fixed moves.
structure Parts (sys : System) (viewers : List Team) (fixed moves : Set Valuation) (e : Enumeration Region) : Prop where
  ends : e.error? = none
  inside : ∀ s ∈ e.items, s.members ⊆ moves
  reads : ∀ s ∈ e.items, s.Reads sys.moveBit
  agreeing : ∀ s ∈ e.items, Agreeing viewers (s.members ∪ fixed)
  complete : ∀ U ⊆ moves, Agreeing viewers (U ∪ fixed) → ∃ s ∈ e.items, U ⊆ s.members

theorem Parts.some {sys : System} {viewers : List Team} {fixed moves : Set Valuation} {e : Enumeration Region}
    (parts : Parts sys viewers fixed moves e) (agreeing : Agreeing viewers fixed) : ∃ s, s ∈ e.items :=
  (parts.complete ∅ (Set.empty_subset _) ((Set.empty_union fixed).symm ▸ agreeing)).imp fun _ => And.left

namespace System

variable {sys : System} {s r : Region}

theorem PlayedSet.sub (played : sys.PlayedSet s) (le : r.members ⊆ s.members) (reads : r.Reads sys.moveBit) : sys.PlayedSet r :=
  ⟨le.trans played.inside, le.trans played.reached, reads⟩

theorem PlayedSet.inter (played : sys.PlayedSet s) (reads : r.Reads sys.moveBit) : sys.PlayedSet (s.inter r) :=
  played.sub (Region.inter_subset_left s r) (played.reads.inter reads)

theorem PlayedSet.diff (played : sys.PlayedSet s) (reads : r.Reads sys.moveBit) : sys.PlayedSet (s.diff r) := by
  refine played.sub ?_ (played.reads.diff reads)
  rw [Region.members_diff]
  exact Set.sdiff_subset

theorem PlayedSet.masked (played : sys.PlayedSet s) {ρ : Valuation} (member : ρ ∈ s.members) :
    ρ ∈ sys.statesMask.members ∧ ρ ∈ sys.inputsMask.members := by
  have inside := played.inside member
  rwa [Frame.movesMask, Region.members_inter] at inside

theorem WellFormed.protocol_played (wf : sys.WellFormed) {t : Team} (of : t.Of sys) : sys.PlayedSet (sys.protocolOf t) :=
  ⟨fun _ member => (wf.protocol_inside of member).1, fun _ member => (wf.protocol_inside of member).2, wf.protocol_reads t⟩

def moveCount (sys : System) (s : Region) : Nat := s.weight (sys.stateBits ++ sys.inputBits).toFinset

theorem reads_moves (reads : s.Reads sys.moveBit) : s.Reads ((sys.stateBits ++ sys.inputBits).toFinset : Finset Nat) := by
  refine reads.mono fun b member => ?_
  rw [Finset.mem_coe, List.mem_toFinset, List.mem_append]
  exact member

theorem move_count_less (sReads : s.Reads sys.moveBit) (rReads : r.Reads sys.moveBit) (le : s.members ⊆ r.members)
    {ρ : Valuation} (inside : ρ ∈ r.members) (outside : ρ ∉ s.members) : sys.moveCount s < sys.moveCount r := by
  refine Region.weight_strict (reads_moves rReads) le (fun same => ?_) (reads_moves sReads)
  subst same
  exact outside inside

theorem move_count_bound (semantics : Semantics) (t : Team) (s : Region) : sys.moveCount s < (Splitter.mk sys t semantics).bound := by
  have bound := Region.weight_bound (sys.stateBits ++ sys.inputBits).toFinset s
  have card := List.toFinset_card_le (sys.stateBits ++ sys.inputBits)
  rw [List.length_append] at card
  have power := Nat.pow_le_pow_right (Nat.zero_lt_two) card
  unfold moveCount Splitter.bound
  rw [Nat.pow_eq]
  exact Nat.lt_succ_of_le (bound.trans power)

-- Some moves taken apart: those of a kind, which are fewer than all, and the others.
structure Cut (sys : System) (moves : Region) (kind : Set Valuation) (here rest : Region) : Prop where
  mem_here : ∀ ρ, ρ ∈ here.members ↔ ρ ∈ moves.members ∧ ρ ∈ kind
  mem_rest : ∀ ρ, ρ ∈ rest.members ↔ ρ ∈ moves.members ∧ ρ ∉ kind
  herePlayed : sys.PlayedSet here
  restPlayed : sys.PlayedSet rest
  less : sys.moveCount rest < sys.moveCount moves

theorem PlayedSet.cut (played : sys.PlayedSet s) (reads : r.Reads sys.moveBit) {kind : Set Valuation}
    (same : ∀ ρ, ρ ∈ (s.inter r).members ↔ ρ ∈ s.members ∧ ρ ∈ kind) {μ : Valuation} (member : μ ∈ s.members) (ofKind : μ ∈ kind) :
    sys.Cut s kind (s.inter r) (s.diff (s.inter r)) := by
  have herePlayed := played.inter reads
  have restPlayed := played.diff herePlayed.reads
  have rest : ∀ ρ, ρ ∈ (s.diff (s.inter r)).members ↔ ρ ∈ s.members ∧ ρ ∉ kind := by
    intro ρ
    rw [Region.members_diff, Set.mem_sdiff, same]
    exact and_congr_right fun inside => not_congr (and_iff_right inside)
  refine ⟨same, rest, herePlayed, restPlayed, ?_⟩
  exact move_count_less restPlayed.reads played.reads (fun ρ inside => ((rest ρ).mp inside).1) member
    fun inside => ((rest μ).mp inside).2 ofKind

namespace Cut

variable {here rest : Region} {kind : Set Valuation} (cut : sys.Cut s kind here rest)

include cut

theorem here_subset : here.members ⊆ s.members := fun ρ inside => ((cut.mem_here ρ).mp inside).1

theorem rest_subset : rest.members ⊆ s.members := fun ρ inside => ((cut.mem_rest ρ).mp inside).1

theorem whole : s.members = here.members ∪ rest.members := by
  ext ρ
  rw [Set.mem_union, cut.mem_here, cut.mem_rest, ← and_or_left]
  exact (and_iff_left (Classical.em _)).symm

end Cut

structure Around (sys : System) (c : Region) (μ : Valuation) : Prop where
  reads : c.Reads sys.moveBit
  states : ∀ ρ ∈ c.members, sys.stateOf ρ = sys.stateOf μ
  itself : μ ∈ c.members

end System

namespace Splitter

variable {sp : Splitter} {w : Team} {s c moves fixed : Region} {ρ μ : Valuation}

theorem conflicts_in_of_picked (fuel : Nat) (none : moves.isEmpty = false) (picked : sp.pickMove moves = .ok c) :
    sp.conflictsIn w (fuel + 1) moves = (sp.hasTwoActions w (moves.inter (sp.classOf w c)) >>= fun two =>
      if two then .ok true else sp.conflictsIn w fuel (moves.diff (moves.inter (sp.classOf w c)))) := by
  rw [conflictsIn, none, picked]
  rfl

theorem part_of_empty (common : Region) (fuel : Nat) (none : moves.isEmpty = true) :
    sp.part fixed (fuel + 1) common moves = .ok ⟨common, .empty, .empty⟩ := by
  rw [part, none]
  rfl

theorem part_of_picked (fixed common : Region) (fuel : Nat) (none : moves.isEmpty = false) (picked : sp.pickMove moves = .ok c) :
    sp.part fixed (fuel + 1) common moves = (sp.isConflicting (moves.inter (sp.classOfMove c)) >>= fun conflict =>
      if conflict || (sp.classOfMove c).meets fixed then
        .ok ⟨common, moves.inter (sp.classOfMove c), moves.diff (moves.inter (sp.classOfMove c))⟩
      else sp.part fixed fuel (common.union (moves.inter (sp.classOfMove c))) (moves.diff (moves.inter (sp.classOfMove c)))) := by
  rw [part, none, picked]
  rfl

theorem buckets_of_empty (fuel : Nat) (none : moves.isEmpty = true) : sp.buckets w fixed (fuel + 1) moves = .done := by
  rw [buckets, none]
  rfl

theorem split_agent_of_empty (fuel : Nat) (none : moves.isEmpty = true) :
    sp.splitAgent w fixed (fuel + 1) moves = .single moves := by
  rw [splitAgent, none]
  rfl

theorem split_from_of_empty (fuel : Nat) (none : moves.isEmpty = true) : sp.splitFrom fixed (fuel + 1) moves = .single moves := by
  rw [splitFrom, none]
  rfl

theorem pick_move_of (inside : moves.members ⊆ sp.sys.movesMask.members) (some : moves.members.Nonempty) :
    ∃ μ ∈ moves.members, ∃ c, sp.pickMove moves = .ok c ∧ sp.sys.Around c μ ∧
      ∀ ρ, ρ ∈ c.members ↔ ∀ b ∈ sp.sys.stateBits ++ sp.sys.inputBits, ρ b = μ b := by
  have same : (sp.sys.movesOf moves).members = moves.members := by
    rw [Frame.movesOf, Region.members_inter, Region.members_inter]
    ext ρ
    refine ⟨fun member => member.1.1, fun member => ?_⟩
    have masked := inside member
    rw [Frame.movesMask, Region.members_inter] at masked
    exact ⟨⟨member, masked.1⟩, masked.2⟩
  obtain ⟨μ, found, picked⟩ := Region.pick_spec (s := sp.sys.movesOf moves) (same ▸ some) (sp.sys.stateBits ++ sp.sys.inputBits)
  refine ⟨μ, same ▸ found, _, ?_, ⟨?_, fun ρ member => ?_, ?_⟩, fun ρ => Region.mem_cell_of⟩
  · unfold pickMove
    rw [Frame.pickMove, picked]
    rfl
  · exact (Region.reads_cell_of _ μ).mono fun b listed => List.mem_append.mp listed
  · exact Frame.state_of_eq_iff.mpr fun b state => Region.mem_cell_of.mp member b (List.mem_append_left _ state)
  · exact Region.mem_cell_of.mpr fun _ _ => rfl

theorem pick_move_spec (played : sp.sys.PlayedSet moves) (some : moves.members.Nonempty) :
    ∃ μ ∈ moves.members, ∃ c, sp.pickMove moves = .ok c ∧ sp.sys.Around c μ ∧
      ∀ ρ, ρ ∈ c.members ↔ ∀ b ∈ sp.sys.stateBits ++ sp.sys.inputBits, ρ b = μ b :=
  pick_move_of played.inside some

theorem pick_state_of (some : (sp.sys.statesOf moves).members.Nonempty) :
    ∃ σ ∈ (sp.sys.statesOf moves).members, ∃ c, sp.pickState moves = .ok c ∧ c.Reads sp.sys.stateBit ∧
      ∀ ρ, ρ ∈ c.members ↔ sp.sys.stateOf ρ = sp.sys.stateOf σ := by
  obtain ⟨σ, inside, picked⟩ := Region.pick_spec some sp.sys.stateBits
  refine ⟨σ, inside, Region.cell (sp.sys.stateBits.map fun v => (v, σ v)), ?_, Region.reads_cell_of _ σ, fun ρ => ?_⟩
  · unfold pickState
    rw [Frame.pickState, picked]
    rfl
  · rw [Frame.state_of_eq_iff]
    exact Region.mem_cell_of

theorem pick_state_within (wf : sp.sys.WellFormed) (inside : moves.members ⊆ sp.sys.statesMask.members)
    (reads : moves.Reads sp.sys.moveBit) (some : moves.members.Nonempty) :
    ∃ μ ∈ moves.members, ∃ c, sp.pickState moves = .ok c ∧ sp.sys.Around c μ := by
  obtain ⟨first, here⟩ := some
  have nonempty : (sp.sys.statesOf moves).members.Nonempty :=
    ⟨first, (Frame.mem_states_of wf.laid reads).mpr ⟨inside here, first, here, rfl⟩⟩
  obtain ⟨σ, found, c, picked, stateReads, cell⟩ := pick_state_of nonempty
  obtain ⟨_, μ, member, same⟩ := (Frame.mem_states_of wf.laid reads).mp found
  exact ⟨μ, member, c, picked, stateReads.mono sp.sys.state_subset_move, fun ρ there => ((cell ρ).mp there).trans same.symm,
    (cell μ).mpr same⟩

theorem pick_state_spec (wf : sp.sys.WellFormed) (played : sp.sys.PlayedSet moves) (some : moves.members.Nonempty) :
    ∃ μ ∈ moves.members, ∃ c, sp.pickState moves = .ok c ∧ sp.sys.Around c μ :=
  pick_state_within wf (fun _ member => (played.masked member).1) played.reads some

theorem reads_class (wf : sp.sys.WellFormed) (w : Team) (reads : s.Reads sp.sys.moveBit) :
    (sp.classOf w s).Reads sp.sys.moveBit :=
  ((System.equivalents_state_set reads).reads.inter wf.reachable_state_set.reads).mono sp.sys.state_subset_move

theorem reads_action (reads : s.Reads sp.sys.moveBit) : (sp.actionOf w s).Reads sp.sys.moveBit := reads.hide_within _

section

variable (wf : sp.sys.WellFormed)

include wf

theorem mem_class (of : w.Of sp.sys) (reads : s.Reads sp.sys.moveBit) (masked : s.members ⊆ sp.sys.statesMask.members) :
    ρ ∈ (sp.classOf w s).members ↔ ρ ∈ sp.sys.reachable.members ∧ ∃ σ ∈ s.members, w.Same σ ρ := by
  rw [classOf, Region.members_inter, Set.mem_inter_iff, wf.mem_equivalents of reads, and_comm]
  constructor
  · rintro ⟨reached, _, σ, member, _, same⟩
    exact ⟨reached, σ, member, same⟩
  · rintro ⟨reached, σ, member, same⟩
    exact ⟨reached, wf.reachable_state_set.inside reached, σ, member, masked member, same⟩

theorem mem_equivalents_around (of : w.Of sp.sys) (around : sp.sys.Around c μ) (state : μ ∈ sp.sys.statesMask.members) :
    ρ ∈ (sp.sys.equivalents w c).members ↔ ρ ∈ sp.sys.statesMask.members ∧ w.Same μ ρ := by
  rw [wf.mem_equivalents of around.reads]
  refine and_congr_right fun _ => ⟨?_, fun same => ⟨μ, around.itself, state, same⟩⟩
  rintro ⟨σ, member, _, same⟩
  have alike : w.Same (sp.sys.stateOf μ) (sp.sys.stateOf σ) := around.states σ member ▸ Team.Same.refl w _
  exact ((wf.same_states of).mp alike).trans same

theorem mem_class_around (of : w.Of sp.sys) (around : sp.sys.Around c μ) (state : μ ∈ sp.sys.statesMask.members) :
    ρ ∈ (sp.classOf w c).members ↔ ρ ∈ sp.sys.reachable.members ∧ w.Same μ ρ := by
  rw [classOf, Region.members_inter, Set.mem_inter_iff, mem_equivalents_around wf of around state, and_comm]
  exact and_congr_right fun reached => and_iff_right (wf.reachable_state_set.inside reached)

theorem mem_action (of : w.Of sp.sys) (reads : s.Reads sp.sys.moveBit) :
    ρ ∈ (sp.actionOf w s).members ↔ ∃ σ ∈ s.members, w.Plays σ ρ := by
  unfold actionOf
  rw [Region.mem_hide]
  have shown : ∀ b ∈ w.actionBits, b ∉ sp.sys.stateBits ++ sp.sys.otherInputs w := by
    intro b acts listed
    rcases List.mem_append.mp listed with state | other
    · exact (wf.laid.inputApart b (wf.action_bit of acts)).1 state
    · exact System.not_other acts other
  constructor
  · rintro ⟨σ, member, agree⟩
    exact ⟨σ, member, fun b acts => agree b (shown b acts)⟩
  · rintro ⟨σ, member, plays⟩
    refine ⟨fun b => if b ∈ sp.sys.stateBits ++ sp.sys.otherInputs w then σ b else ρ b, reads.mem member ?_, fun b out => if_neg out⟩
    intro b move
    by_cases hidden : b ∈ sp.sys.stateBits ++ sp.sys.otherInputs w
    · exact (if_pos hidden).symm
    · refine Eq.trans ?_ (if_neg hidden).symm
      rcases move with state | input
      · exact absurd (List.mem_append_left _ state) hidden
      · rcases System.action_or_other w input with acts | other
        · exact plays b acts
        · exact absurd (List.mem_append_right _ other) hidden

theorem mem_action_around (of : w.Of sp.sys) (around : sp.sys.Around c μ)
    (cell : ∀ ρ, ρ ∈ c.members ↔ ∀ b ∈ sp.sys.stateBits ++ sp.sys.inputBits, ρ b = μ b) :
    ρ ∈ (sp.actionOf w c).members ↔ w.Plays μ ρ := by
  rw [mem_action wf of around.reads]
  constructor
  · rintro ⟨σ, member, plays⟩
    have same : w.Plays μ σ := fun b acts => ((cell σ).mp member b (List.mem_append_right _ (wf.action_bit of acts))).symm
    exact same.trans plays
  · exact fun plays => ⟨μ, around.itself, plays⟩

theorem has_two_actions_spec (of : w.Of sp.sys) (played : sp.sys.PlayedSet moves) (some : moves.members.Nonempty) :
    ∃ two, sp.hasTwoActions w moves = .ok two ∧
      (two = false ↔ ∀ ρ ∈ moves.members, ∀ σ ∈ moves.members, w.Plays ρ σ) := by
  obtain ⟨μ, member, c, picked, around, cell⟩ := pick_move_spec played some
  refine ⟨!(moves.diff (sp.actionOf w c)).isEmpty, by rw [hasTwoActions, picked]; rfl, ?_⟩
  rw [Bool.not_eq_false', Region.is_empty_members, Region.members_diff, Set.sdiff_eq_empty]
  constructor
  · intro le ρ here σ there
    have first := (mem_action_around wf of around cell).mp (le here)
    exact first.symm.trans ((mem_action_around wf of around cell).mp (le there))
  · exact fun plays ρ here => (mem_action_around wf of around cell).mpr (plays μ member ρ here)

theorem mem_part (of : w.Of sp.sys) (played : sp.sys.PlayedSet moves) (member : μ ∈ moves.members) (around : sp.sys.Around c μ) :
    ρ ∈ (moves.inter (sp.classOf w c)).members ↔ ρ ∈ moves.members ∧ w.Same μ ρ := by
  rw [Region.members_inter, Set.mem_inter_iff, mem_class_around wf of around (played.masked member).1]
  exact and_congr_right fun here => and_iff_right (played.reached here)

theorem part_cut (of : w.Of sp.sys) (played : sp.sys.PlayedSet moves) (member : μ ∈ moves.members) (around : sp.sys.Around c μ) :
    sp.sys.Cut moves {ρ | w.Same μ ρ} (moves.inter (sp.classOf w c)) (moves.diff (moves.inter (sp.classOf w c))) :=
  played.cut (reads_class wf w around.reads) (fun _ => mem_part wf of played member around) member (Team.Same.refl w μ)

theorem conflicts_in_spec (of : w.Of sp.sys) (fuel : Nat) (played : sp.sys.PlayedSet moves)
    (enough : sp.sys.moveCount moves < fuel) :
    ∃ conflict, sp.conflictsIn w fuel moves = .ok conflict ∧ (conflict = false ↔ Agreeing [w] moves.members) := by
  induction fuel generalizing moves with
  | zero => omega
  | succ fuel ih =>
      cases none : moves.isEmpty with
      | true =>
          refine ⟨false, by rw [conflictsIn, none]; rfl, ?_⟩
          rw [Region.is_empty_members.mp none]
          exact ⟨fun _ _ _ ρ here => here.elim, fun _ => rfl⟩
      | false =>
          obtain ⟨μ, member, c, picked, around, cell⟩ := pick_move_spec played (Region.not_empty_members.mp none)
          have cut := part_cut wf of played member around
          obtain ⟨two, decided, twoSpec⟩ := has_two_actions_spec wf of cut.herePlayed
            ⟨μ, (cut.mem_here μ).mpr ⟨member, Team.Same.refl w μ⟩⟩
          have step : sp.conflictsIn w (fuel + 1) moves =
              (if two then .ok true else sp.conflictsIn w fuel (moves.diff (moves.inter (sp.classOf w c)))) := by
            rw [conflicts_in_of_picked fuel none picked, decided]
            rfl
          cases two with
          | true =>
              refine ⟨true, by rw [step]; rfl, ⟨fun bad => Bool.noConfusion bad, fun agreeing => ?_⟩⟩
              refine twoSpec.mpr fun ρ inside σ there => ?_
              obtain ⟨here, looks⟩ := (cut.mem_here ρ).mp inside
              obtain ⟨hereToo, looksToo⟩ := (cut.mem_here σ).mp there
              exact agreeing w (List.mem_singleton.mpr rfl) ρ here σ hereToo (looks.symm.trans looksToo)
          | false =>
              have less := cut.less
              obtain ⟨conflict, found, spec⟩ := ih cut.restPlayed (by omega)
              refine ⟨conflict, by rw [step]; exact found, spec.trans ⟨fun agreeing => ?_, fun agreeing => agreeing.mono cut.rest_subset⟩⟩
              rw [cut.whole]
              -- nothing in the rest looks like a move of this class, so that the two can be judged apart
              refine Agreeing.union (fun x viewer ρ inside σ there _ => ?_) agreeing fun x viewer ρ inside σ there same => ?_
              · exact List.mem_singleton.mp viewer ▸ twoSpec.mp rfl ρ inside σ there
              · rw [List.mem_singleton.mp viewer] at same
                exact ((cut.mem_rest σ).mp there).2 (((cut.mem_here ρ).mp inside).2.trans same)

theorem any_conflicts_spec (teams : List Team) (each : ∀ x ∈ teams, x.Of sp.sys) (played : sp.sys.PlayedSet moves) :
    ∃ conflict, sp.anyConflicts moves teams = .ok conflict ∧ (conflict = false ↔ Agreeing teams moves.members) := by
  induction teams with
  | nil => exact ⟨false, rfl, fun _ x viewer => absurd viewer List.not_mem_nil, fun _ => rfl⟩
  | cons x rest ih =>
      obtain ⟨first, decided, firstSpec⟩ := conflicts_in_spec wf (each x List.mem_cons_self) sp.bound played
        (System.move_count_bound sp.semantics sp.team moves)
      obtain ⟨later, found, laterSpec⟩ := ih fun y listed => each y (List.mem_cons_of_mem _ listed)
      have step : sp.anyConflicts moves (x :: rest) = if first then .ok true else .ok later := by
        show (sp.conflictsIn x sp.bound moves >>= _) = _
        rw [decided, ← found]
        cases first <;> rfl
      cases first with
      | true =>
          refine ⟨true, step, fun bad => Bool.noConfusion bad, fun agreeing => firstSpec.mpr fun y viewer => ?_⟩
          exact agreeing y (List.mem_singleton.mp viewer ▸ List.mem_cons_self)
      | false =>
          refine ⟨later, step, fun none => (firstSpec.mp rfl).cons (laterSpec.mp none), fun agreeing => laterSpec.mpr fun y listed => ?_⟩
          exact agreeing y (List.mem_cons_of_mem _ listed)

variable (of : sp.team.Of sp.sys)

include of

theorem class_of_move_spec (around : sp.sys.Around c μ) (state : μ ∈ sp.sys.statesMask.members)
    (reached : μ ∈ sp.sys.reachable.members) :
    (sp.classOfMove c).Reads sp.sys.stateBit ∧ μ ∈ (sp.classOfMove c).members ∧
      (∀ x ∈ sp.team.viewers sp.semantics, ∀ σ ∈ (sp.classOfMove c).members, ∀ ρ ∈ sp.sys.reachable.members,
        x.Same σ ρ → ρ ∈ (sp.classOfMove c).members) ∧
      (sp.semantics = .group → ∀ ρ ∈ (sp.classOfMove c).members, sp.team.Same μ ρ) := by
  unfold classOfMove
  cases mode : sp.semantics with
  | group =>
      have known := fun ρ => mem_class_around (ρ := ρ) wf of around state
      refine ⟨(System.equivalents_state_set around.reads).reads.inter wf.reachable_state_set.reads, (known μ).mpr ⟨reached, .refl _ μ⟩,
        fun x viewer σ here ρ there same => ?_, fun _ ρ here => ((known ρ).mp here).2⟩
      rw [List.mem_singleton.mp viewer] at same
      exact (known ρ).mpr ⟨there, ((known σ).mp here).2.trans same⟩
  | individual =>
      obtain ⟨known, above, closed⟩ := wf.common_equivalents_spec of around.reads
      refine ⟨known.reads, above ?_, closed, fun bad => Semantics.noConfusion bad⟩
      exact (Frame.mem_states_of wf.laid around.reads).mpr ⟨state, μ, around.itself, rfl⟩

theorem is_conflicting_spec (played : sp.sys.PlayedSet moves) (some : moves.members.Nonempty)
    (alike : sp.semantics = .group → ∀ ρ ∈ moves.members, ∀ σ ∈ moves.members, sp.team.Same ρ σ) :
    ∃ conflict, sp.isConflicting moves = .ok conflict ∧
      (conflict = false ↔ Agreeing (sp.team.viewers sp.semantics) moves.members) := by
  unfold isConflicting
  cases mode : sp.semantics with
  | group =>
      obtain ⟨two, decided, spec⟩ := has_two_actions_spec wf of played some
      refine ⟨two, decided, spec.trans ⟨fun plays x viewer ρ here σ there _ => ?_, fun agreeing ρ here σ there => ?_⟩⟩
      · exact List.mem_singleton.mp viewer ▸ plays ρ here σ there
      · exact agreeing sp.team (List.mem_singleton.mpr rfl) ρ here σ there (alike mode ρ here σ there)
  | individual => exact any_conflicts_spec wf sp.team.singles (fun x viewer => Team.single_of of viewer) played

-- What a parting leaves: moves without a choice, apart from the rest and from the fixed moves; one class; and the rest.
structure Parted (sp : Splitter) (fixed common moves : Set Valuation) (p : Parting) : Prop where
  whole : p.common.members ∪ (p.conflicting.members ∪ p.rest.members) = common ∪ moves
  inside : p.conflicting.members ∪ p.rest.members ⊆ moves
  commonReads : p.common.Reads sp.sys.moveBit
  conflictingReads : p.conflicting.Reads sp.sys.moveBit
  restReads : p.rest.Reads sp.sys.moveBit
  agreeing : Agreeing (sp.team.viewers sp.semantics) p.common.members
  apartFixed : Apart (sp.team.viewers sp.semantics) p.common.members fixed
  apart : Apart (sp.team.viewers sp.semantics) p.common.members (p.conflicting.members ∪ p.rest.members)
  classApart : Apart (sp.team.viewers sp.semantics) p.conflicting.members p.rest.members
  alike : sp.semantics = .group → ∀ ρ ∈ p.conflicting.members, ∀ σ ∈ p.conflicting.members, sp.team.Same ρ σ
  finished : p.conflicting.members = ∅ → p.rest.members = ∅
  disjoint : ∀ ρ ∈ p.conflicting.members, ρ ∉ p.rest.members

omit wf of in
theorem Parted.exhausted {fixed : Set Valuation} {common moves : Region} (reads : common.Reads sp.sys.moveBit)
    (agreeing : Agreeing (sp.team.viewers sp.semantics) common.members)
    (apartFixed : Apart (sp.team.viewers sp.semantics) common.members fixed) (nothing : moves.members = ∅) :
    sp.Parted fixed common.members moves.members ⟨common, .empty, .empty⟩ := by
  constructor <;> simp only [Region.members_empty, nothing, Set.union_empty, Set.empty_subset]
  case commonReads => exact reads
  case conflictingReads => exact Region.reads_empty _
  case restReads => exact Region.reads_empty _
  case agreeing => exact agreeing
  case apartFixed => exact apartFixed
  case apart => exact fun _ _ _ _ _ bad => bad.elim
  case classApart => exact fun _ _ _ bad => bad.elim
  case alike => exact fun _ _ bad => bad.elim
  case finished => exact fun _ => trivial
  case disjoint => exact fun _ bad => bad.elim

structure ClassCut (sp : Splitter) (moves states : Region) (μ : Valuation) : Prop where
  herePlayed : sp.sys.PlayedSet (moves.inter states)
  restPlayed : sp.sys.PlayedSet (moves.diff (moves.inter states))
  itself : μ ∈ (moves.inter states).members
  whole : (moves.inter states).members ∪ (moves.diff (moves.inter states)).members = moves.members
  apart : Apart (sp.team.viewers sp.semantics) (moves.inter states).members (moves.diff (moves.inter states)).members
  alike : sp.semantics = .group → ∀ ρ ∈ (moves.inter states).members, ∀ σ ∈ (moves.inter states).members, sp.team.Same ρ σ
  closed : ∀ x ∈ sp.team.viewers sp.semantics, ∀ ρ ∈ (moves.inter states).members, ∀ σ ∈ sp.sys.reachable.members,
    x.Same ρ σ → σ ∈ states.members
  less : sp.sys.moveCount (moves.diff (moves.inter states)) < sp.sys.moveCount moves

namespace ClassCut

omit wf of

variable {states : Region} (cut : sp.ClassCut moves states μ)

include cut

theorem here_subset : (moves.inter states).members ⊆ moves.members := cut.whole ▸ Set.subset_union_left

theorem rest_subset : (moves.diff (moves.inter states)).members ⊆ moves.members := cut.whole ▸ Set.subset_union_right

theorem stopped {common : Region} (reads : common.Reads sp.sys.moveBit)
    (agreeing : Agreeing (sp.team.viewers sp.semantics) common.members)
    (apartFixed : Apart (sp.team.viewers sp.semantics) common.members fixed.members)
    (apart : Apart (sp.team.viewers sp.semantics) common.members moves.members) :
    sp.Parted fixed.members common.members moves.members ⟨common, moves.inter states, moves.diff (moves.inter states)⟩ where
  whole := by rw [cut.whole]
  inside := by rw [cut.whole]
  commonReads := reads
  conflictingReads := cut.herePlayed.reads
  restReads := cut.restPlayed.reads
  agreeing := agreeing
  apartFixed := apartFixed
  apart := by rwa [cut.whole]
  classApart := cut.apart
  alike := cut.alike
  finished nothing := absurd cut.itself (nothing ▸ Set.notMem_empty μ)
  disjoint ρ inside rest := by
    rw [Region.members_diff] at rest
    exact rest.2 inside

end ClassCut

theorem class_spec (played : sp.sys.PlayedSet moves) (member : μ ∈ moves.members) (around : sp.sys.Around c μ) :
    sp.ClassCut moves (sp.classOfMove c) μ := by
  obtain ⟨reads, here, closed, alike⟩ := class_of_move_spec wf of around (played.masked member).1 (played.reached member)
  have inPlayed := played.inter (reads.mono sp.sys.state_subset_move)
  have restPlayed := played.diff inPlayed.reads
  have memIn : ∀ ρ, ρ ∈ (moves.inter (sp.classOfMove c)).members ↔ ρ ∈ moves.members ∧ ρ ∈ (sp.classOfMove c).members := by
    intro ρ
    rw [Region.members_inter, Set.mem_inter_iff]
  have memRest : ∀ ρ, ρ ∈ (moves.diff (moves.inter (sp.classOfMove c))).members ↔
      ρ ∈ moves.members ∧ ρ ∉ (sp.classOfMove c).members := by
    intro ρ
    rw [Region.members_diff, Set.mem_sdiff, memIn]
    exact and_congr_right fun inside => not_congr (and_iff_right inside)
  refine ⟨inPlayed, restPlayed, (memIn μ).mpr ⟨member, here⟩, ?whole, ?apart, ?alike, ?closed, ?less⟩
  case whole =>
    ext ρ
    rw [Set.mem_union, memIn, memRest, ← and_or_left]
    exact and_iff_left (Classical.em _)
  case apart =>
    intro x viewer ρ inside σ outside same
    have there := (memRest σ).mp outside
    exact there.2 (closed x viewer ρ ((memIn ρ).mp inside).2 σ (played.reached there.1) same)
  case alike =>
    intro mode ρ inside σ there
    exact (alike mode ρ ((memIn ρ).mp inside).2).symm.trans (alike mode σ ((memIn σ).mp there).2)
  case closed => exact fun x viewer ρ inside σ reached => closed x viewer ρ ((memIn ρ).mp inside).2 σ reached
  case less =>
    exact System.move_count_less restPlayed.reads played.reads (fun ρ inside => ((memRest ρ).mp inside).1) member
      fun inside => ((memRest μ).mp inside).2 here

theorem part_spec (fixedPlayed : sp.sys.PlayedSet fixed) (fuel : Nat) {common : Region} (commonReads : common.Reads sp.sys.moveBit)
    (agreeing : Agreeing (sp.team.viewers sp.semantics) common.members)
    (apartFixed : Apart (sp.team.viewers sp.semantics) common.members fixed.members)
    (apart : Apart (sp.team.viewers sp.semantics) common.members moves.members)
    (played : sp.sys.PlayedSet moves) (enough : sp.sys.moveCount moves < fuel) :
    ∃ p, sp.part fixed fuel common moves = .ok p ∧ sp.Parted fixed.members common.members moves.members p := by
  induction fuel generalizing common moves with
  | zero => omega
  | succ fuel ih =>
      cases none : moves.isEmpty with
      | true =>
          exact ⟨_, part_of_empty common fuel none, .exhausted commonReads agreeing apartFixed (Region.is_empty_members.mp none)⟩
      | false =>
          obtain ⟨μ, member, c, picked, around, _⟩ := pick_move_spec played (Region.not_empty_members.mp none)
          have cut := class_spec wf of played member around
          have less := cut.less
          obtain ⟨conflict, decided, conflictSpec⟩ := is_conflicting_spec wf of cut.herePlayed ⟨μ, cut.itself⟩ cut.alike
          have step := part_of_picked fixed common fuel none picked
          rw [decided] at step
          cases stop : (conflict || (sp.classOfMove c).meets fixed) with
          | true => exact ⟨_, step.trans (if_pos stop), cut.stopped commonReads agreeing apartFixed apart⟩
          | false =>
              obtain ⟨noConflict, noFixed⟩ := Bool.or_eq_false_iff.mp stop
              have hereFixed : Apart (sp.team.viewers sp.semantics) (moves.inter (sp.classOfMove c)).members fixed.members := by
                intro x viewer ρ inside σ known same
                have meets := Region.meets_members.mpr ⟨σ, cut.closed x viewer ρ inside σ (fixedPlayed.reached known) same, known⟩
                rw [noFixed] at meets
                exact Bool.false_ne_true meets
              obtain ⟨p, found, parted⟩ := @ih _ (common.union (moves.inter (sp.classOfMove c)))
                (commonReads.union cut.herePlayed.reads)
                (by
                  rw [Region.members_union]
                  exact agreeing.union (conflictSpec.mp noConflict) (apart.mono (Set.Subset.refl _) cut.here_subset))
                (by
                  rw [Region.members_union]
                  exact Apart.left_union apartFixed hereFixed)
                (by
                  rw [Region.members_union]
                  exact Apart.left_union (apart.mono (Set.Subset.refl _) cut.rest_subset) cut.apart)
                cut.restPlayed (by omega)
              refine ⟨p, (step.trans (if_neg (by simp [stop]))).trans found, ?_⟩
              have total := parted.whole
              rw [Region.members_union, Set.union_assoc, cut.whole] at total
              exact { parted with whole := total, inside := parted.inside.trans cut.rest_subset }

end

theorem parts_single {viewers : List Team} {fixed moves : Set Valuation} {s : Region} (inside : s.members ⊆ moves)
    (reads : s.Reads sp.sys.moveBit) (agreeing : Agreeing viewers (s.members ∪ fixed)) (all : moves ⊆ s.members) :
    Parts sp.sys viewers fixed moves (.single s) := by
  refine ⟨rfl, ?_, ?_, ?_, fun U le _ => ⟨s, List.mem_singleton.mpr rfl, le.trans all⟩⟩
  · exact fun r listed => List.mem_singleton.mp listed ▸ inside
  · exact fun r listed => List.mem_singleton.mp listed ▸ reads
  · exact fun r listed => List.mem_singleton.mp listed ▸ agreeing

theorem masked_played (played : sp.sys.PlayedSet moves) : moves.inter sp.sys.movesMask = moves := by
  apply Region.members_injective
  rw [Region.members_inter]
  exact Set.inter_eq_self_of_subset_left played.inside

theorem split_eq_from {fixed : Region} (played : sp.sys.PlayedSet moves) (fixedPlayed : sp.sys.PlayedSet fixed) :
    sp.split moves fixed = sp.splitFrom fixed sp.bound moves := by
  unfold split
  dsimp only
  rw [masked_played played, masked_played fixedPlayed]

-- Buckets of a class: nonempty sets of moves that agree with the fixed ones lie in one of them.
structure Bucketed (sp : Splitter) (w : Team) (fixed moves : Set Valuation) (e : Enumeration Region) : Prop where
  ends : e.error? = none
  inside : ∀ s ∈ e.items, s.members ⊆ moves
  reads : ∀ s ∈ e.items, s.Reads sp.sys.moveBit
  agreeing : ∀ s ∈ e.items, Agreeing [w] (s.members ∪ fixed)
  complete : ∀ U ⊆ moves, U.Nonempty → Agreeing [w] (U ∪ fixed) → ∃ s ∈ e.items, U ⊆ s.members

section

variable (wf : sp.sys.WellFormed) (of : w.Of sp.sys) (fixedPlayed : sp.sys.PlayedSet fixed) (fixedAgrees : Agreeing [w] fixed.members)

include wf of fixedPlayed fixedAgrees

theorem allowed_spec {bucket : Region} (played : sp.sys.PlayedSet bucket) (member : μ ∈ bucket.members)
    (alike : ∀ ρ ∈ bucket.members, w.Same μ ρ) (plays : ∀ ρ ∈ bucket.members, w.Plays μ ρ) :
    (((sp.classOf w bucket).inter fixed).isEmpty ||
        (sp.actionOf w ((sp.classOf w bucket).inter fixed)).meets bucket) = true ↔
      Agreeing [w] (bucket.members ∪ fixed.members) := by
  have known : ∀ ρ, ρ ∈ ((sp.classOf w bucket).inter fixed).members ↔ ρ ∈ fixed.members ∧ w.Same μ ρ := by
    intro ρ
    rw [Region.members_inter, Set.mem_inter_iff, mem_class wf of played.reads fun σ inside => (played.masked inside).1, and_comm]
    refine and_congr_right fun there => ⟨?_, fun same => ⟨fixedPlayed.reached there, μ, member, same⟩⟩
    rintro ⟨_, σ, inside, same⟩
    exact (alike σ inside).trans same
  have knownReads := (reads_class wf w played.reads).inter fixedPlayed.reads
  have bucketAgrees : Agreeing [w] bucket.members := fun x viewer ρ here σ there _ =>
    List.mem_singleton.mp viewer ▸ (plays ρ here).symm.trans (plays σ there)
  rw [Bool.or_eq_true, Region.is_empty_members, Region.meets_members]
  constructor
  · rintro (none | ⟨ρ, acts, inside⟩)
    · refine bucketAgrees.union fixedAgrees fun x viewer ρ here σ there same => ?_
      rw [List.mem_singleton.mp viewer] at same
      exact Set.notMem_empty σ (none ▸ (known σ).mpr ⟨there, (alike ρ here).trans same⟩)
    · obtain ⟨σ, there, same⟩ := (mem_action wf of knownReads).mp acts
      refine fixedAgrees.spread ((known σ).mp there).1 (Set.Subset.refl _) fun τ here => ⟨?_, ?_⟩
      · exact ((known σ).mp there).2.symm.trans (alike τ here)
      · exact (same.trans (plays ρ inside).symm).trans (plays τ here)
  · intro agreeing
    by_cases none : ((sp.classOf w bucket).inter fixed).members = ∅
    · exact .inl none
    · obtain ⟨σ, there⟩ := Set.nonempty_iff_ne_empty.mpr none
      have both := (known σ).mp there
      have pair := agreeing w (List.mem_singleton.mpr rfl) σ (.inr both.1) μ (.inl member) both.2.symm
      exact .inr ⟨μ, (mem_action wf of knownReads).mpr ⟨σ, there, pair⟩, member⟩

theorem buckets_step (fuel : Nat) (played : sp.sys.PlayedSet moves) (some : moves.members.Nonempty)
    (alike : ∀ ρ ∈ moves.members, ∀ σ ∈ moves.members, w.Same ρ σ) :
    ∃ μ ∈ moves.members, ∃ bucket rest, sp.sys.Cut moves {ρ | w.Plays μ ρ} bucket rest ∧
      (Agreeing [w] (bucket.members ∪ fixed.members) ∧
          sp.buckets w fixed (fuel + 1) moves = .item bucket (fun _ => sp.buckets w fixed fuel rest) ∨
        ¬ Agreeing [w] (bucket.members ∪ fixed.members) ∧ sp.buckets w fixed (fuel + 1) moves = sp.buckets w fixed fuel rest) := by
  obtain ⟨μ, member, c, picked, around, cell⟩ := pick_move_spec played some
  have cut : sp.sys.Cut moves {ρ | w.Plays μ ρ} (moves.inter (sp.actionOf w c)) (moves.diff (moves.inter (sp.actionOf w c))) := by
    refine played.cut (reads_action around.reads) (fun ρ => ?_) member (Team.Plays.refl w μ)
    rw [Region.members_inter, Set.mem_inter_iff, mem_action_around wf of around cell]
    rfl
  have allowed := allowed_spec wf of fixedPlayed fixedAgrees cut.herePlayed ((cut.mem_here μ).mpr ⟨member, Team.Plays.refl w μ⟩)
    (fun ρ inside => alike μ member ρ (cut.here_subset inside)) fun ρ inside => ((cut.mem_here ρ).mp inside).2
  refine ⟨μ, member, _, _, cut, ?_⟩
  rw [← allowed, buckets, Region.not_empty_members.mpr some]
  simp only [Bool.false_eq_true, if_false, picked, Enumeration.ofExcept]
  split
  · exact .inl ⟨‹_›, rfl⟩
  · exact .inr ⟨‹_›, rfl⟩

theorem buckets_spec (fuel : Nat) (played : sp.sys.PlayedSet moves)
    (alike : ∀ ρ ∈ moves.members, ∀ σ ∈ moves.members, w.Same ρ σ) (enough : sp.sys.moveCount moves < fuel) :
    sp.Bucketed w fixed.members moves.members (sp.buckets w fixed fuel moves) := by
  induction fuel generalizing moves with
  | zero => omega
  | succ fuel ih =>
      cases none : moves.isEmpty with
      | true =>
          rw [buckets_of_empty fuel none]
          refine ⟨rfl, by simp [Enumeration.items], by simp [Enumeration.items], by simp [Enumeration.items], ?_⟩
          rintro U le ⟨ρ, here⟩
          exact absurd (le here) (Region.is_empty_members.mp none ▸ Set.notMem_empty ρ)
      | false =>
          obtain ⟨μ, member, bucket, rest, cut, step⟩ := buckets_step wf of fixedPlayed fixedAgrees fuel played
            (Region.not_empty_members.mp none) alike
          have less := cut.less
          have later := ih cut.restPlayed (fun ρ here σ there => alike ρ (cut.rest_subset here) σ (cut.rest_subset there)) (by omega)
          have place : ∀ U ⊆ moves.members, U.Nonempty → Agreeing [w] (U ∪ fixed.members) →
              U ⊆ bucket.members ∧ Agreeing [w] (bucket.members ∪ fixed.members) ∨ U ⊆ rest.members := by
            rintro U le ⟨ρ, here⟩ agreeing
            have one : ∀ σ ∈ U, w.Plays ρ σ := fun σ there =>
              agreeing w (List.mem_singleton.mpr rfl) ρ (.inl here) σ (.inl there) (alike ρ (le here) σ (le there))
            by_cases plays : w.Plays μ ρ
            · refine .inl ⟨fun σ there => (cut.mem_here σ).mpr ⟨le there, plays.trans (one σ there)⟩, ?_⟩
              refine agreeing.spread (.inl here) Set.subset_union_right fun σ there => ⟨?_, ?_⟩
              · exact alike ρ (le here) σ (cut.here_subset there)
              · exact plays.symm.trans ((cut.mem_here σ).mp there).2
            · exact .inr fun σ there => (cut.mem_rest σ).mpr ⟨le there, fun too => plays (Team.Plays.trans too (one σ there).symm)⟩
          obtain ⟨kept, same⟩ | ⟨dropped, same⟩ := step
          · rw [same]
            refine ⟨later.ends, ?_, ?_, ?_, fun U le some agreeing => ?_⟩
            · exact List.forall_mem_cons.mpr ⟨cut.here_subset, fun s listed => (later.inside s listed).trans cut.rest_subset⟩
            · exact List.forall_mem_cons.mpr ⟨cut.herePlayed.reads, later.reads⟩
            · exact List.forall_mem_cons.mpr ⟨kept, later.agreeing⟩
            · rcases place U le some agreeing with ⟨here, _⟩ | there
              · exact ⟨_, List.mem_cons_self, here⟩
              · obtain ⟨s, listed, inside⟩ := later.complete U there some agreeing
                exact ⟨s, List.mem_cons_of_mem _ listed, inside⟩
          · rw [same]
            refine ⟨later.ends, fun s listed => (later.inside s listed).trans cut.rest_subset, later.reads, later.agreeing,
              fun U le some agreeing => ?_⟩
            rcases place U le some agreeing with ⟨_, kept⟩ | there
            · exact absurd kept dropped
            · exact later.complete U there some agreeing

-- Splitting for one agent chooses a bucket of a class of its own, where there is one, and goes on with the others.
theorem split_agent_step (fuel : Nat) (played : sp.sys.PlayedSet moves) (some : moves.members.Nonempty)
    (later : ∀ rest : Region, sp.sys.PlayedSet rest → sp.sys.moveCount rest < sp.sys.moveCount moves →
      (sp.splitAgent w fixed fuel rest).error? = none) :
    ∃ μ ∈ moves.members, ∃ here rest, sp.sys.Cut moves {ρ | w.Same μ ρ} here rest ∧
      sp.Bucketed w fixed.members here.members (sp.buckets w fixed sp.bound here) ∧
      (sp.splitAgent w fixed (fuel + 1) moves).error? = none ∧
      ((sp.buckets w fixed sp.bound here).items = [] ∧
          (sp.splitAgent w fixed (fuel + 1) moves).items = (sp.splitAgent w fixed fuel rest).items ∨
        (sp.buckets w fixed sp.bound here).items ≠ [] ∧ (sp.splitAgent w fixed (fuel + 1) moves).items =
          (sp.buckets w fixed sp.bound here).items.flatMap fun bucket =>
            (sp.splitAgent w fixed fuel rest).items.map (·.union bucket)) := by
  obtain ⟨μ, member, c, picked, around⟩ := pick_state_spec wf played some
  have cut := part_cut wf of played member around
  have bucketed := buckets_spec wf of fixedPlayed fixedAgrees sp.bound cut.herePlayed
    (fun ρ here σ there => Team.Same.trans (Team.Same.symm ((cut.mem_here ρ).mp here).2) ((cut.mem_here σ).mp there).2)
    (System.move_count_bound sp.semantics sp.team _)
  have itself : (moves.inter (sp.classOf w c)).isEmpty = false :=
    Region.not_empty_members.mpr ⟨μ, (cut.mem_here μ).mpr ⟨member, Team.Same.refl w μ⟩⟩
  have ends := later _ cut.restPlayed cut.less
  refine ⟨μ, member, _, _, cut, bucketed, ?_⟩
  rw [splitAgent, Region.not_empty_members.mpr some]
  simp only [Bool.false_eq_true, if_false, picked, Enumeration.ofExcept, itself]
  cases found : sp.buckets w fixed sp.bound (moves.inter (sp.classOf w c)) with
  | done => exact ⟨ends, .inl ⟨rfl, rfl⟩⟩
  | fail e =>
      have none := bucketed.ends
      rw [found] at none
      cases none
  | item first tail =>
      simp only [← found]
      obtain ⟨all, items⟩ := Enumeration.bind_spec bucketed.ends
        (f := fun bucket => (sp.splitAgent w fixed fuel (moves.diff (moves.inter (sp.classOf w c)))).map (·.union bucket))
        fun bucket _ => by rw [Enumeration.error_map, ends]
      refine ⟨all, .inr ⟨by rw [found]; exact List.cons_ne_nil _ _, ?_⟩⟩
      simp only [items, Enumeration.items_map]

theorem split_agent_spec (fuel : Nat) (played : sp.sys.PlayedSet moves) (enough : sp.sys.moveCount moves < fuel) :
    Parts sp.sys [w] fixed.members moves.members (sp.splitAgent w fixed fuel moves) := by
  induction fuel generalizing moves with
  | zero => omega
  | succ fuel ih =>
      cases none : moves.isEmpty with
      | true =>
          rw [split_agent_of_empty fuel none]
          have nothing := Region.is_empty_members.mp none
          refine parts_single (Set.Subset.refl _) played.reads ?_ (Set.Subset.refl _)
          rwa [nothing, Set.empty_union]
      | false =>
          obtain ⟨μ, member, here, rest, cut, bucketed, ends, step⟩ := split_agent_step wf of fixedPlayed fixedAgrees fuel played
            (Region.not_empty_members.mp none) fun rest restPlayed less => (ih restPlayed (by omega)).ends
          have less := cut.less
          have later := ih cut.restPlayed (by omega)
          -- a uniform set falls into its moves in the class, which lie in a bucket, and the others, which lie in a part of the rest
          have away : ∀ U ⊆ moves.members, U \ {ρ | w.Same μ ρ} ⊆ rest.members :=
            fun U le ρ inside => (cut.mem_rest ρ).mpr ⟨le inside.1, inside.2⟩
          have within : ∀ U ⊆ moves.members, U ∩ {ρ | w.Same μ ρ} ⊆ here.members :=
            fun U le ρ inside => (cut.mem_here ρ).mpr ⟨le inside.1, inside.2⟩
          obtain ⟨nothing, items⟩ | ⟨something, items⟩ := step
          · refine ⟨ends, ?_, ?_, ?_, fun U le agreeing => ?_⟩ <;> rw [items]
            · exact fun s listed => (later.inside s listed).trans cut.rest_subset
            · exact later.reads
            · exact later.agreeing
            · refine later.complete U (fun ρ inside => ?_) agreeing
              by_cases seen : w.Same μ ρ
              · obtain ⟨s, listed, _⟩ := bucketed.complete (U ∩ {ρ | w.Same μ ρ}) (within U le) ⟨ρ, inside, seen⟩
                  (agreeing.mono (Set.union_subset_union_left _ Set.inter_subset_left))
                rw [nothing] at listed
                exact absurd listed List.not_mem_nil
              · exact away U le ⟨inside, seen⟩
          · have listed : ∀ s, s ∈ (sp.splitAgent w fixed (fuel + 1) moves).items ↔
                ∃ bucket ∈ (sp.buckets w fixed sp.bound here).items, ∃ r ∈ (sp.splitAgent w fixed fuel rest).items,
                  r.union bucket = s := by
              intro s
              simp only [items, List.mem_flatMap, List.mem_map]
            refine ⟨ends, ?_, ?_, ?_, fun U le agreeing => ?_⟩ <;> simp only [listed]
            · rintro s ⟨bucket, known, r, other, rfl⟩
              rw [Region.members_union]
              exact Set.union_subset ((later.inside r other).trans cut.rest_subset) ((bucketed.inside bucket known).trans cut.here_subset)
            · rintro s ⟨bucket, known, r, other, rfl⟩
              exact (later.reads r other).union (bucketed.reads bucket known)
            · rintro s ⟨bucket, known, r, other, rfl⟩
              rw [Region.members_union]
              refine (later.agreeing r other).both (bucketed.agreeing bucket known) fun x viewer ρ inside σ there same => ?_
              rw [List.mem_singleton.mp viewer] at same
              exact ((cut.mem_rest ρ).mp (later.inside r other inside)).2
                (Team.Same.trans ((cut.mem_here σ).mp (bucketed.inside bucket known there)).2 same.symm)
            · obtain ⟨r, other, restIn⟩ := later.complete _ (away U le)
                (agreeing.mono (Set.union_subset_union_left _ Set.sdiff_subset))
              have chosen : ∃ bucket ∈ (sp.buckets w fixed sp.bound here).items, U ∩ {ρ | w.Same μ ρ} ⊆ bucket.members := by
                by_cases seen : (U ∩ {ρ | w.Same μ ρ}).Nonempty
                · exact bucketed.complete _ (within U le) seen
                    (agreeing.mono (Set.union_subset_union_left _ Set.inter_subset_left))
                · refine ⟨_, List.head_mem something, ?_⟩
                  rw [Set.not_nonempty_iff_eq_empty.mp seen]
                  exact Set.empty_subset _
              obtain ⟨bucket, known, bucketIn⟩ := chosen
              refine ⟨r.union bucket, ⟨bucket, known, r, other, rfl⟩, fun ρ inside => ?_⟩
              rw [Region.members_union]
              by_cases seen : w.Same μ ρ
              · exact .inr (bucketIn ⟨inside, seen⟩)
              · exact .inl (restIn ⟨inside, seen⟩)

end

section

variable (wf : sp.sys.WellFormed) (fixedPlayed : sp.sys.PlayedSet fixed)

include wf fixedPlayed

theorem split_agents_spec (teams : List Team) (each : ∀ x ∈ teams, x.Of sp.sys) (fixedAgrees : Agreeing teams fixed.members)
    (played : sp.sys.PlayedSet moves) : Parts sp.sys teams fixed.members moves.members (sp.splitAgents fixed moves teams) := by
  induction teams with
  | nil =>
      exact parts_single (Set.Subset.refl _) played.reads (fun x viewer => absurd viewer List.not_mem_nil) (Set.Subset.refl _)
  | cons agent others ih =>
      have firstAgrees : Agreeing [agent] fixed.members := fun x viewer =>
        fixedAgrees x (List.mem_singleton.mp viewer ▸ List.mem_cons_self)
      have rest := ih (fun x listed => each x (List.mem_cons_of_mem _ listed))
        fun x viewer => fixedAgrees x (List.mem_cons_of_mem _ viewer)
      have first := fun part (listed : part ∈ (sp.splitAgents fixed moves others).items) =>
        split_agent_spec wf (each agent List.mem_cons_self) fixedPlayed firstAgrees sp.bound
          (played.sub (rest.inside part listed) (rest.reads part listed)) (System.move_count_bound sp.semantics sp.team part)
      obtain ⟨ends, items⟩ := Enumeration.bind_spec rest.ends (f := fun part => sp.splitAgent agent fixed sp.bound part)
        fun part listed => (first part listed).ends
      have listed : ∀ s, s ∈ (sp.splitAgents fixed moves (agent :: others)).items ↔
          ∃ part ∈ (sp.splitAgents fixed moves others).items, s ∈ (sp.splitAgent agent fixed sp.bound part).items := by
        intro s
        rw [splitAgents, items, List.mem_flatMap]
      refine ⟨ends, ?_, ?_, ?_, fun U le agreeing => ?_⟩ <;> simp only [listed]
      · rintro s ⟨part, known, inside⟩
        exact ((first part known).inside s inside).trans (rest.inside part known)
      · rintro s ⟨part, known, inside⟩
        exact (first part known).reads s inside
      · rintro s ⟨part, known, inside⟩
        refine ((first part known).agreeing s inside).cons ((rest.agreeing part known).mono ?_)
        exact Set.union_subset_union_left _ ((first part known).inside s inside)
      · obtain ⟨part, known, above⟩ := rest.complete U le fun x viewer => agreeing x (List.mem_cons_of_mem _ viewer)
        obtain ⟨s, inside, within⟩ := (first part known).complete U above
          fun x viewer => agreeing x (List.mem_singleton.mp viewer ▸ List.mem_cons_self)
        exact ⟨s, ⟨part, known, inside⟩, within⟩

variable (of : sp.team.Of sp.sys) (fixedAgrees : Agreeing (sp.team.viewers sp.semantics) fixed.members)

include of fixedAgrees

theorem split_class_spec (played : sp.sys.PlayedSet moves)
    (alike : sp.semantics = .group → ∀ ρ ∈ moves.members, ∀ σ ∈ moves.members, sp.team.Same ρ σ) :
    Parts sp.sys (sp.team.viewers sp.semantics) fixed.members moves.members (sp.splitClass fixed moves) := by
  unfold splitClass
  cases mode : sp.semantics with
  | individual =>
      rw [mode] at fixedAgrees
      exact split_agents_spec wf fixedPlayed sp.team.singles (fun x viewer => Team.single_of of viewer) fixedAgrees played
  | group =>
      rw [mode] at fixedAgrees
      have bucketed := buckets_spec wf of fixedPlayed fixedAgrees sp.bound played (alike mode)
        (System.move_count_bound sp.semantics sp.team moves)
      simp only
      cases found : sp.buckets sp.team fixed sp.bound moves with
      | done =>
          rw [found] at bucketed
          refine ⟨rfl, ?_, ?_, ?_, fun U le agreeing => ⟨.empty, List.mem_singleton.mpr rfl, fun ρ here => ?_⟩⟩
          · rintro s (listed | ⟨_, ⟨⟩⟩)
            simp
          · rintro s (listed | ⟨_, ⟨⟩⟩)
            exact Region.reads_empty _
          · rintro s (listed | ⟨_, ⟨⟩⟩)
            rw [Region.members_empty, Set.empty_union]
            exact fixedAgrees
          · obtain ⟨s, listed, _⟩ := bucketed.complete U le ⟨ρ, here⟩ agreeing
            exact absurd listed List.not_mem_nil
      | fail e =>
          rw [found] at bucketed
          cases bucketed.ends
      | item first tail =>
          rw [found] at bucketed
          refine ⟨bucketed.ends, bucketed.inside, bucketed.reads, bucketed.agreeing, fun U le agreeing => ?_⟩
          rcases Set.eq_empty_or_nonempty U with rfl | some
          · exact ⟨first, List.mem_cons_self, Set.empty_subset _⟩
          · exact bucketed.complete U le some agreeing

theorem split_from_step (fuel : Nat) (played : sp.sys.PlayedSet moves) (some : moves.members.Nonempty)
    (later : ∀ rest : Region, sp.sys.PlayedSet rest → sp.sys.moveCount rest < sp.sys.moveCount moves →
      (sp.splitFrom fixed fuel rest).error? = none) :
    ∃ p, sp.Parted fixed.members ∅ moves.members p ∧ (sp.splitFrom fixed (fuel + 1) moves).error? = none ∧
      (p.conflicting.members = ∅ ∧ p.common.members = moves.members ∧ (sp.splitFrom fixed (fuel + 1) moves).items = [p.common] ∨
        sp.sys.PlayedSet p.conflicting ∧ sp.sys.PlayedSet p.rest ∧ sp.sys.moveCount p.rest < sp.sys.moveCount moves ∧
          (sp.splitFrom fixed (fuel + 1) moves).items = (sp.splitClass fixed p.conflicting).items.flatMap fun choice =>
            (sp.splitFrom fixed fuel p.rest).items.map fun s => (p.common.union s).union choice) := by
  obtain ⟨p, found, parted⟩ := @part_spec sp moves fixed wf of fixedPlayed sp.bound .empty (Region.reads_empty _)
    (by simp [Agreeing]) (by simp [Apart]) (by simp [Apart]) played (System.move_count_bound sp.semantics sp.team moves)
  rw [Region.members_empty] at parted
  refine ⟨p, parted, ?_⟩
  rw [splitFrom, Region.not_empty_members.mpr some]
  simp only [Bool.false_eq_true, if_false, found, Enumeration.ofExcept]
  cases class_ : p.conflicting.isEmpty with
  | true =>
      have nothing := Region.is_empty_members.mp class_
      refine ⟨rfl, .inl ⟨nothing, ?_, rfl⟩⟩
      simpa [nothing, parted.finished nothing] using parted.whole
  | false =>
      obtain ⟨μ, inClass⟩ := Region.not_empty_members.mp class_
      have conflictingMoves : p.conflicting.members ⊆ moves.members := Set.subset_union_left.trans parted.inside
      have restMoves : p.rest.members ⊆ moves.members := Set.subset_union_right.trans parted.inside
      have less := System.move_count_less parted.restReads played.reads restMoves (conflictingMoves inClass) (parted.disjoint μ inClass)
      have conflictingPlayed := played.sub conflictingMoves parted.conflictingReads
      have restPlayed := played.sub restMoves parted.restReads
      have choices := split_class_spec wf fixedPlayed of fixedAgrees conflictingPlayed parted.alike
      obtain ⟨ends, items⟩ := Enumeration.bind_spec choices.ends
        (f := fun choice => (sp.splitFrom fixed fuel p.rest).map fun s => (p.common.union s).union choice)
        fun choice _ => by rw [Enumeration.error_map, later _ restPlayed less]
      refine ⟨ends, .inr ⟨conflictingPlayed, restPlayed, less, ?_⟩⟩
      simp only [if_neg Bool.false_ne_true, items, Enumeration.items_map]

theorem split_from_spec (fuel : Nat) (played : sp.sys.PlayedSet moves) (enough : sp.sys.moveCount moves < fuel) :
    Parts sp.sys (sp.team.viewers sp.semantics) fixed.members moves.members (sp.splitFrom fixed fuel moves) := by
  induction fuel generalizing moves with
  | zero => omega
  | succ fuel ih =>
      cases none : moves.isEmpty with
      | true =>
          rw [split_from_of_empty fuel none]
          refine parts_single (Set.Subset.refl _) played.reads ?_ (Set.Subset.refl _)
          rwa [Region.is_empty_members.mp none, Set.empty_union]
      | false =>
          obtain ⟨p, parted, ends, step⟩ := split_from_step wf fixedPlayed of fixedAgrees fuel played
            (Region.not_empty_members.mp none) fun rest restPlayed less => (ih restPlayed (by omega)).ends
          have whole : p.common.members ∪ (p.conflicting.members ∪ p.rest.members) = moves.members := by
            simpa using parted.whole
          have commonMoves : p.common.members ⊆ moves.members := whole ▸ Set.subset_union_left
          have conflictingMoves : p.conflicting.members ⊆ moves.members := Set.subset_union_left.trans parted.inside
          have restMoves : p.rest.members ⊆ moves.members := Set.subset_union_right.trans parted.inside
          have commonAgrees := parted.agreeing.union fixedAgrees parted.apartFixed
          obtain ⟨_, all, items⟩ | ⟨conflictingPlayed, restPlayed, less, items⟩ := step
          · have only := @parts_single sp _ _ _ _ commonMoves parted.commonReads commonAgrees all.symm.subset
            refine ⟨ends, ?_, ?_, ?_, ?_⟩ <;> rw [items]
            · exact only.inside
            · exact only.reads
            · exact only.agreeing
            · exact only.complete
          · have choices := split_class_spec wf fixedPlayed of fixedAgrees conflictingPlayed parted.alike
            have later := ih restPlayed (by omega)
            have listed : ∀ s, s ∈ (sp.splitFrom fixed (fuel + 1) moves).items ↔
                ∃ choice ∈ (sp.splitClass fixed p.conflicting).items, ∃ r ∈ (sp.splitFrom fixed fuel p.rest).items,
                  (p.common.union r).union choice = s := by
              intro s
              simp only [items, List.mem_flatMap, List.mem_map]
            refine ⟨ends, ?_, ?_, ?_, fun U le agreeing => ?_⟩ <;> simp only [listed]
            · rintro s ⟨choice, known, r, rest, rfl⟩
              rw [Region.members_union, Region.members_union]
              exact Set.union_subset (Set.union_subset commonMoves ((later.inside r rest).trans restMoves))
                ((choices.inside choice known).trans conflictingMoves)
            · rintro s ⟨choice, known, r, rest, rfl⟩
              exact (parted.commonReads.union (later.reads r rest)).union (choices.reads choice known)
            · rintro s ⟨choice, known, r, rest, rfl⟩
              rw [Region.members_union, Region.members_union]
              refine Agreeing.both (Agreeing.both commonAgrees (later.agreeing r rest) ?_) (choices.agreeing choice known) ?_
              · exact parted.apart.mono (Set.Subset.refl _) ((later.inside r rest).trans Set.subset_union_right)
              · refine Apart.left_union ?_ (parted.classApart.symm.mono (later.inside r rest) (choices.inside choice known))
                exact parted.apart.mono (Set.Subset.refl _) ((choices.inside choice known).trans Set.subset_union_left)
            -- a uniform set is put together again from its moves in the class and those in the rest
            · obtain ⟨choice, known, choiceIn⟩ := choices.complete (U ∩ p.conflicting.members) Set.inter_subset_right
                (agreeing.mono (Set.union_subset_union_left _ Set.inter_subset_left))
              obtain ⟨r, rest, restIn⟩ := later.complete (U ∩ p.rest.members) Set.inter_subset_right
                (agreeing.mono (Set.union_subset_union_left _ Set.inter_subset_left))
              refine ⟨_, ⟨choice, known, r, rest, rfl⟩, fun ρ inside => ?_⟩
              rw [Region.members_union, Region.members_union]
              have place : ρ ∈ p.common.members ∪ (p.conflicting.members ∪ p.rest.members) := whole ▸ le inside
              rcases place with common | here | there
              · exact .inl (.inl common)
              · exact .inr (choiceIn ⟨inside, here⟩)
              · exact .inl (.inr (restIn ⟨inside, there⟩))

-- Splitting lists the maximal uniform strategies that agree with the fixed moves.
theorem split_spec (played : sp.sys.PlayedSet moves) :
    Parts sp.sys (sp.team.viewers sp.semantics) fixed.members moves.members (sp.split moves fixed) := by
  rw [split_eq_from played fixedPlayed]
  exact split_from_spec wf fixedPlayed of fixedAgrees sp.bound played (System.move_count_bound sp.semantics sp.team moves)

end

theorem split_free_spec (wf : sp.sys.WellFormed) (of : sp.team.Of sp.sys) (played : sp.sys.PlayedSet moves) :
    Parts sp.sys (sp.team.viewers sp.semantics) ∅ moves.members (sp.split moves .empty) := by
  have nothing : sp.sys.PlayedSet .empty := ⟨by simp, by simp, Region.reads_empty _⟩
  have agreeing : Agreeing (sp.team.viewers sp.semantics) Region.empty.members := by simp [Agreeing]
  have spec := split_spec wf nothing of agreeing played
  rwa [Region.members_empty] at spec

theorem closed_states_members (wf : sp.sys.WellFormed) (of : w.Of sp.sys) (known : sp.sys.StateSet s) :
    ρ ∈ (sp.closedStates w s).members ↔
      ρ ∈ s.members ∧ ∀ u, sp.sys.Reachable u → w.Same ρ u → u ∈ s.members := by
  have losingReads : ((sp.sys.statesOutside (s.hide sp.sys.inputBits)).inter sp.sys.reachable).Reads sp.sys.stateBit :=
    (sp.sys.reads_states_mask.diff (known.reads.hide_within _)).inter wf.reachable_state_set.reads
  have losing : ∀ σ, σ ∈ ((sp.sys.statesOutside (s.hide sp.sys.inputBits)).inter sp.sys.reachable).members ↔
      σ ∈ sp.sys.reachable.members ∧ σ ∉ s.members := by
    intro σ
    rw [Region.members_inter, Frame.statesOutside, Region.members_diff, Set.mem_inter_iff, Set.mem_sdiff,
      Frame.mem_hide_inputs wf.laid (known.reads.mono sp.sys.state_subset_move), Frame.has_state_of_reads known.reads]
    exact ⟨fun both => ⟨both.2, both.1.2⟩, fun both => ⟨⟨wf.reachable_state_set.inside both.1, both.2⟩, both.1⟩⟩
  unfold closedStates
  rw [Region.members_diff, Set.mem_sdiff, wf.mem_equivalents of (losingReads.mono sp.sys.state_subset_move)]
  refine and_congr_right fun inside => ?_
  constructor
  · intro never u reached same
    by_contra outside
    have there := wf.mem_of_reachable reached
    exact never ⟨known.inside inside, u, (losing u).mpr ⟨there, outside⟩, wf.reachable_state_set.inside there, same.symm⟩
  · rintro all ⟨_, σ, lost, _, same⟩
    have both := (losing σ).mp lost
    have there := all _ (wf.mem_reachable.mp both.1) (same.symm.trans (wf.same_state_of of σ))
    exact both.2 ((Frame.mem_state_of known.reads).mp there)

theorem hide_state_set (wf : sp.sys.WellFormed) (played : sp.sys.PlayedSet moves) :
    sp.sys.StateSet (moves.hide sp.sys.inputBits) := by
  refine ⟨fun ρ member => ?_, Frame.reads_hide_inputs played.reads⟩
  obtain ⟨σ, inside, same⟩ := (Frame.mem_hide_inputs wf.laid played.reads).mp member
  exact (Frame.mem_of_state sp.sys.reads_states_mask same).mp (played.masked inside).1

theorem surely_winning_members (wf : sp.sys.WellFormed) (of : sp.team.Of sp.sys) (played : sp.sys.PlayedSet moves) :
    ρ ∈ (sp.surelyWinning (moves.hide sp.sys.inputBits)).members ↔
      sp.sys.Sure sp.semantics sp.team moves.members (sp.sys.stateOf ρ) := by
  have known := hide_state_set wf played
  have here : ∀ u, u ∈ (moves.hide sp.sys.inputBits).members ↔ ∃ σ ∈ moves.members, sp.sys.stateOf σ = sp.sys.stateOf u :=
    fun u => Frame.mem_hide_inputs wf.laid played.reads
  have closed : ∀ w ∈ sp.team.viewers sp.semantics, ρ ∈ (sp.closedStates w (moves.hide sp.sys.inputBits)).members ↔
      ρ ∈ (moves.hide sp.sys.inputBits).members ∧
        ∀ u, sp.sys.Reachable u → w.Same (sp.sys.stateOf ρ) u → ∃ σ ∈ moves.members, sp.sys.stateOf σ = u := by
    intro w viewer
    have ofW := Team.viewer_of of viewer
    rw [closed_states_members wf ofW known]
    refine and_congr_right fun _ => forall₂_congr fun u reached => ?_
    rw [here, wf.reachable_state reached]
    have like := wf.same_state_of ofW ρ
    exact ⟨fun all same => all (like.trans same), fun all same => all (like.symm.trans same)⟩
  unfold surelyWinning System.Sure
  cases mode : sp.semantics with
  | group =>
      rw [mode] at closed
      rw [closed sp.team (List.mem_singleton.mpr rfl), here]
      refine and_congr_right fun _ => ⟨fun all w viewer => ?_, fun all => all sp.team (List.mem_singleton.mpr rfl)⟩
      exact List.mem_singleton.mp viewer ▸ all
  | individual =>
      rw [mode] at closed
      rw [← List.foldl_map (f := fun agent => sp.closedStates agent (moves.hide sp.sys.inputBits)) (g := Region.inter),
        Region.mem_fold_inter, here]
      refine and_congr_right fun inside => ?_
      rw [List.forall_mem_map]
      refine forall₂_congr fun w viewer => ?_
      rw [closed w viewer]
      exact and_iff_right ((here ρ).mpr inside)

theorem surely_winning_reached (wf : sp.sys.WellFormed) (of : sp.team.Of sp.sys) (played : sp.sys.PlayedSet moves) :
    (sp.surelyWinning (moves.hide sp.sys.inputBits)).members ⊆ sp.sys.reachable.members := by
  intro ρ member
  obtain ⟨σ, move, same⟩ := ((sp.surely_winning_members wf of played).mp member).1
  exact (Frame.mem_of_state wf.reachable_state_set.reads same).mp (played.reached move)

theorem surely_winning_state_set (wf : sp.sys.WellFormed) (played : sp.sys.PlayedSet moves) :
    sp.sys.StateSet (sp.surelyWinning (moves.hide sp.sys.inputBits)) := by
  have known := hide_state_set wf played
  have closed : ∀ w, sp.sys.StateSet (sp.closedStates w (moves.hide sp.sys.inputBits)) := by
    intro w
    have losingReads : ((sp.sys.statesOutside ((moves.hide sp.sys.inputBits).hide sp.sys.inputBits)).inter
        sp.sys.reachable).Reads sp.sys.moveBit :=
      ((sp.sys.reads_states_mask.diff (known.reads.hide_within _)).inter wf.reachable_state_set.reads).mono sp.sys.state_subset_move
    refine ⟨fun ρ member => ?_, known.reads.diff (System.equivalents_state_set losingReads).reads⟩
    rw [closedStates, Region.members_diff] at member
    exact known.inside member.1
  unfold surelyWinning
  cases sp.semantics with
  | group => exact closed sp.team
  | individual =>
      refine ⟨fun ρ member => ?_, ?_⟩
      · rw [← List.foldl_map (f := fun agent => sp.closedStates agent (moves.hide sp.sys.inputBits)) (g := Region.inter),
          Region.mem_fold_inter] at member
        exact known.inside member.1
      · rw [← List.foldl_map (f := fun agent => sp.closedStates agent (moves.hide sp.sys.inputBits)) (g := Region.inter)]
        refine Region.reads_fold_inter known.reads fun r listed => ?_
        obtain ⟨w, _, rfl⟩ := List.mem_map.mp listed
        exact (closed w).reads

end Splitter

end Coalition
