import Coalition.Model.Team
import Coalition.Proofs.Model.Step

-- Equivalents, protocols and forcing moves in terms of states that look the same, actions that are the same, and transitions.

set_option autoImplicit false

namespace Coalition

theorem source_unique {α β : Type} {parts : List α} {f : α → List β} (distinct : (parts.flatMap f).Nodup) {a c : α} (first : a ∈ parts)
    (second : c ∈ parts) {x : β} (here : x ∈ f a) (there : x ∈ f c) : a = c := by
  by_contra different
  have symmetric : Std.Symm (Function.onFun List.Disjoint f) := ⟨fun _ _ disjoint => List.Disjoint.symm disjoint⟩
  exact (List.nodup_flatMap.mp distinct).2.forall first second different here there

namespace Team

variable {t : Team} {s u w : Valuation}

-- Both states give every observation of the team the same value.
def Same (t : Team) (s u : Valuation) : Prop := ∀ a ∈ t.members, ∀ v ∈ a.observed, ∀ b ∈ v.bits, s b = u b

-- Both valuations give the actions of the team the same values.
def Plays (t : Team) (s u : Valuation) : Prop := ∀ b ∈ t.actionBits, s b = u b

def Of (t : Team) (sys : System) : Prop := ∀ a ∈ t.members, a ∈ sys.agents

theorem Same.refl (t : Team) (s : Valuation) : t.Same s s := fun _ _ _ _ _ _ => rfl

theorem Same.symm (same : t.Same s u) : t.Same u s := fun a member v seen b bit => (same a member v seen b bit).symm

theorem Same.trans (first : t.Same s u) (second : t.Same u w) : t.Same s w :=
  fun a member v seen b bit => (first a member v seen b bit).trans (second a member v seen b bit)

theorem Plays.refl (t : Team) (s : Valuation) : t.Plays s s := fun _ _ => rfl

theorem Plays.symm (plays : t.Plays s u) : t.Plays u s := fun b bit => (plays b bit).symm

theorem Plays.trans (first : t.Plays s u) (second : t.Plays u w) : t.Plays s w :=
  fun b bit => (first b bit).trans (second b bit)

theorem single_of {sys : System} (of : t.Of sys) {single : Team} (member : single ∈ t.singles) : single.Of sys := by
  obtain ⟨a, listed, rfl⟩ := List.mem_map.mp member
  intro b only
  rw [List.mem_singleton.mp only]
  exact of a listed

theorem insert_new_mem {vars : List Variable} {v x : Variable} (member : x ∈ insertNew vars v) : x ∈ vars ∨ x = v := by
  unfold insertNew at member
  split at member
  · exact .inl member
  · exact (List.mem_append.mp member).imp_right List.mem_singleton.mp

theorem insert_new_any (vars : List Variable) (v : Variable) (name : String) :
    (insertNew vars v).any (·.name == name) = (vars.any (·.name == name) || v.name == name) := by
  unfold insertNew
  split
  · rename_i known
    by_cases same : v.name = name
    · subst same
      simp [known]
    · have different : (v.name == name) = false := by simpa using same
      simp [different]
  · simp

theorem fold_insert_any (vars more : List Variable) (name : String) :
    (more.foldl insertNew vars).any (·.name == name) = (vars.any (·.name == name) || more.any (·.name == name)) := by
  induction more generalizing vars with
  | nil => simp
  | cons v rest ih => rw [List.foldl_cons, ih, insert_new_any, List.any_cons, Bool.or_assoc]

theorem mem_fold_insert {vars more : List Variable} {x : Variable} (member : x ∈ more.foldl insertNew vars) : x ∈ vars ∨ x ∈ more := by
  induction more generalizing vars with
  | nil => exact .inl member
  | cons v rest ih =>
      rcases ih member with early | late
      · exact (insert_new_mem early).imp_right fun same : x = v => List.mem_cons.mpr (.inl same)
      · exact .inr (List.mem_cons_of_mem _ late)

theorem any_observed (t : Team) (name : String) :
    t.observed.any (·.name == name) = true ↔ ∃ a ∈ t.members, ∃ v ∈ a.observed, v.name = name := by
  unfold observed
  rw [(List.mergeSort_perm _ _).any_eq, fold_insert_any]
  simp

end Team

-- Without commas and empty names the key of a team tells its agents.
theorem team_key_injective {xs ys : List String} (named : ∀ x ∈ xs, x ≠ "" ∧ ',' ∉ x.toList) (namedToo : ∀ y ∈ ys, y ≠ "" ∧ ',' ∉ y.toList)
    (same : teamKey xs = teamKey ys) : xs = ys := by
  have parts : ∀ {names : List String}, (∀ x ∈ names, x ≠ "" ∧ ',' ∉ x.toList) → names ≠ [] →
      (teamKey names).toList.splitOn ',' = names.map String.toList := by
    intro names named some
    unfold teamKey
    rw [String.toList_intercalate]
    refine List.splitOn_intercalate ',' (fun l listed => ?_) (by simpa using some)
    obtain ⟨x, inside, rfl⟩ := List.mem_map.mp listed
    exact (named x inside).2
  have none : (teamKey []).toList.splitOn ',' = [[]] := by decide
  have only : ∀ {names : List String}, (∀ x ∈ names, x ≠ "" ∧ ',' ∉ x.toList) → names.map String.toList ≠ [[]] := by
    intro names named empty
    obtain ⟨x, rfl, blank⟩ := List.map_eq_singleton_iff.mp empty
    exact (named x (List.mem_cons_self ..)).1 (String.toList_eq_nil_iff.mp blank)
  have keys := congrArg (fun key => key.toList.splitOn ',') same
  rcases eq_or_ne xs [] with rfl | some <;> rcases eq_or_ne ys [] with rfl | someToo
  · rfl
  · rw [none, parts namedToo someToo] at keys
    exact absurd keys.symm (only namedToo)
  · rw [none, parts named some] at keys
    exact absurd keys (only named)
  · rw [parts named some, parts namedToo someToo] at keys
    exact List.map_injective_iff.mpr (fun _ _ => String.toList_inj.mp) keys

namespace System

variable {sys : System} {t : Team} {ρ σ : Valuation} {states target moves : Region}

theorem team_spec {names : List String} (known : sys.team names = .ok t) : t.Of sys ∧ t.names = names := by
  obtain ⟨members, found, same⟩ := ok_of_bind known
  cases same
  have each : members.map (·.name) = names ∧ ∀ a ∈ members, a ∈ sys.agents := by
    clear known
    induction names generalizing members with
    | nil =>
        cases found
        simp
    | cons name rest ih =>
        rw [List.mapM_cons] at found
        obtain ⟨a, first, found⟩ := ok_of_bind found
        obtain ⟨others, more, found⟩ := ok_of_bind found
        cases found
        cases agent : sys.agent? name with
        | none => simp [agent] at first
        | some b =>
            have here : b = a := by simpa [agent] using first
            subst here
            obtain ⟨sameNames, known⟩ := ih others more
            have named : b.name = name := by simpa using List.find?_some agent
            exact ⟨by rw [List.map_cons, named, sameNames], List.forall_mem_cons.mpr ⟨List.mem_of_find?_eq_some agent, known⟩⟩
  exact ⟨each.2, each.1⟩

theorem members_subset {names more : List String} {u : Team} (small : sys.team names = .ok t) (large : sys.team more = .ok u)
    (le : names ⊆ more) : t.members ⊆ u.members := by
  obtain ⟨members, found, same⟩ := ok_of_bind small
  obtain ⟨others, foundToo, sameToo⟩ := ok_of_bind large
  cases same
  cases sameToo
  intro a member
  obtain ⟨name, listed, here⟩ := mem_of_map_m found a member
  obtain ⟨b, memberToo, there⟩ := ok_of_map_m foundToo name (le listed)
  exact Except.ok.inj (here.symm.trans there) ▸ memberToo

theorem team_of_spec (sys : System) (names : List String) :
    Yields (sys.teamOf names) fun t => t.Of sys ∧ sys.team t.names = .ok t := by
  refine yields_bind (P := fun _ => True) (fun _ _ => trivial) fun sorted _ t known => ?_
  obtain ⟨of, same⟩ := team_spec known
  exact ⟨of, same.symm ▸ known⟩

theorem equivalents_state_set (reads : states.Reads sys.moveBit) : sys.StateSet (sys.equivalents t states) := by
  refine ⟨Region.inter_subset_right _ _, Region.Reads.inter ?_ sys.reads_states_mask⟩
  refine ((reads.inter (sys.reads_states_mask.mono sys.state_subset_move)).hide (sys.unobserved t)).mono ?_
  rintro b ⟨state | input, shown⟩
  · exact state
  · exact absurd (List.mem_append_right _ input) shown

theorem action_or_other (t : Team) {b : Nat} (input : b ∈ sys.inputBits) : b ∈ t.actionBits ∨ b ∈ sys.otherInputs t := by
  by_cases acts : b ∈ t.actionBits
  · exact .inl acts
  · exact .inr (List.mem_filter.mpr ⟨input, by simpa using acts⟩)

theorem not_other {b : Nat} (acts : b ∈ t.actionBits) : b ∉ sys.otherInputs t := by
  intro other
  have outside := (List.mem_filter.mp other).2
  simp [acts] at outside

theorem other_input {b : Nat} (other : b ∈ sys.otherInputs t) : b ∈ sys.inputBits := (List.mem_filter.mp other).1

namespace WellFormed

variable (wf : sys.WellFormed)

include wf

theorem observes (of : t.Of sys) {a : Agent} (member : a ∈ t.members) {v : Variable} (seen : v ∈ a.observed) :
    v ∈ sys.stateVars := (wf.agents a (of a member)).observes v seen

theorem observed_bit (of : t.Of sys) {a : Agent} (member : a ∈ t.members) {v : Variable} (seen : v ∈ a.observed)
    {b : Nat} (bit : b ∈ v.bits) : b ∈ sys.stateBits := Frame.bits_state (wf.observes of member seen) b bit

theorem action_input (of : t.Of sys) {v : Variable} (listed : v ∈ t.actions) : v ∈ sys.inputVars := by
  obtain ⟨a, member, acts⟩ := List.mem_flatMap.mp listed
  exact (wf.agents a (of a member)).acts v acts

theorem action_bit (of : t.Of sys) {b : Nat} (bit : b ∈ t.actionBits) : b ∈ sys.inputBits := by
  obtain ⟨v, listed, here⟩ := List.mem_flatMap.mp bit
  exact Frame.bits_input (wf.action_input of listed) b here

theorem var_of_bit {v w : Variable} (vState : v ∈ sys.stateVars) (wState : w ∈ sys.stateVars) {b : Nat}
    (vBit : b ∈ v.bits) (wBit : b ∈ w.bits) : v = w :=
  source_unique wf.laid.stateNodup vState wState vBit wBit

theorem seen_by_name (of : t.Of sys) {v : Variable} (state : v ∈ sys.stateVars) :
    t.observed.any (·.name == v.name) = true ↔ ∃ a ∈ t.members, v ∈ a.observed := by
  rw [Team.any_observed]
  constructor
  · rintro ⟨a, member, w, seen, same⟩
    have equal := List.inj_on_of_nodup_map wf.distinct (List.mem_append_left _ (wf.observes of member seen))
      (List.mem_append_left _ state) same
    exact ⟨a, member, equal ▸ seen⟩
  · rintro ⟨a, member, seen⟩
    exact ⟨a, member, v, seen, rfl⟩

theorem mem_observed (of : t.Of sys) {v : Variable} : v ∈ t.observed ↔ ∃ a ∈ t.members, v ∈ a.observed := by
  have owned : ∀ w ∈ t.observed, ∃ a ∈ t.members, w ∈ a.observed := by
    intro w listed
    rcases Team.mem_fold_insert ((List.mergeSort_perm _ _).mem_iff.mp listed) with none | found
    · cases none
    · exact List.mem_flatMap.mp found
  refine ⟨owned v, fun seen => ?_⟩
  obtain ⟨a, member, observed⟩ := seen
  have state := wf.observes of member observed
  obtain ⟨w, listed, same⟩ := List.any_eq_true.mp ((wf.seen_by_name of state).mpr ⟨a, member, observed⟩)
  obtain ⟨b, owner, observedToo⟩ := owned w listed
  have named : w.name = v.name := by simpa using same
  have equal := List.inj_on_of_nodup_map wf.distinct (List.mem_append_left _ (wf.observes of owner observedToo))
    (List.mem_append_left _ state) named
  exact equal ▸ listed

theorem mem_equivalence (of : t.Of sys) : ρ ∈ (sys.equivalenceOf t).members ↔
    ρ ∈ sys.statesMask.members ∧ sys.nextOf ρ ∈ sys.statesMask.members ∧ t.Same ρ (sys.nextOf ρ) := by
  unfold equivalenceOf
  rw [← List.foldl_map (f := fun v : Variable => v.unchanged) (g := Region.inter), Region.mem_fold_inter, Region.members_inter,
    Set.mem_inter_iff, Frame.mem_next_mask wf.laid, and_assoc]
  refine and_congr_right fun _ => and_congr_right fun _ => ?_
  simp only [List.forall_mem_map]
  have bit : ∀ v ∈ t.observed, ρ ∈ v.unchanged.members ↔ ∀ b ∈ v.bits, ρ b = sys.nextOf ρ b := by
    intro v listed
    obtain ⟨a, member, observed⟩ := (wf.mem_observed of).mp listed
    rw [Region.mem_unchanged (wf.laid.states v (wf.observes of member observed)).2]
    refine forall₂_congr fun b here => ?_
    have state : b ∈ sys.stateBits := wf.observed_bit of member observed here
    simp [Frame.next_of_apply wf.laid, state]
  constructor
  · exact fun all a member v observed =>
      have listed := (wf.mem_observed of).mpr ⟨a, member, observed⟩
      (bit v listed).mp (all v listed)
  · intro same v listed
    obtain ⟨a, member, observed⟩ := (wf.mem_observed of).mp listed
    exact (bit v listed).mpr (same a member v observed)

theorem reads_equivalence (of : t.Of sys) : (sys.equivalenceOf t).Reads sys.stepBit := by
  refine Region.Reads.of_mem fun ρ σ agree member => ?_
  rw [wf.mem_equivalence of] at member ⊢
  have next : sys.nextOf ρ = sys.nextOf σ := Frame.next_of_congr wf.laid fun b bit => agree b (.inl (.inr bit))
  have states : ∀ b ∈ sys.stateBits, ρ b = σ b := fun b bit => agree b (.inl (.inl bit))
  rw [← next]
  refine ⟨(Frame.mem_of_state sys.reads_states_mask (Frame.state_of_eq_iff.mpr states)).mp member.1, member.2.1, ?_⟩
  exact fun a listed v seen b bit => (states b (wf.observed_bit of listed seen bit)).symm.trans (member.2.2 a listed v seen b bit)

theorem mem_unobserved (of : t.Of sys) {b : Nat} (state : b ∈ sys.stateBits) :
    b ∉ sys.unobserved t ↔ ∃ a ∈ t.members, ∃ v ∈ a.observed, b ∈ v.bits := by
  obtain ⟨v, listed, bit⟩ := List.mem_flatMap.mp state
  constructor
  · intro shown
    by_cases seen : t.observed.any (·.name == v.name) = true
    · obtain ⟨a, member, here⟩ := (wf.seen_by_name of listed).mp seen
      exact ⟨a, member, v, here, bit⟩
    · refine absurd (List.mem_append_left _ (List.mem_flatMap.mpr ⟨v, List.mem_filter.mpr ⟨listed, ?_⟩, bit⟩)) shown
      simpa using seen
  · rintro ⟨a, member, w, seen, bitW⟩ hidden
    rcases List.mem_append.mp hidden with unseen | input
    · obtain ⟨x, filtered, bitX⟩ := List.mem_flatMap.mp unseen
      obtain ⟨listedX, notSeen⟩ := List.mem_filter.mp filtered
      have same := wf.var_of_bit (wf.observes of member seen) listedX bitW bitX
      have named := (wf.seen_by_name of listedX).mpr ⟨a, member, same ▸ seen⟩
      simp [named] at notSeen
    · exact (wf.laid.inputApart b input).1 state

theorem mem_hide_unobserved (of : t.Of sys) (reads : states.Reads sys.moveBit) :
    ρ ∈ (states.hide (sys.unobserved t)).members ↔ ∃ σ ∈ states.members, t.Same σ ρ := by
  rw [Region.mem_hide]
  constructor
  · rintro ⟨σ, member, agree⟩
    refine ⟨σ, member, fun a listed v seen b bit => agree b ?_⟩
    exact (wf.mem_unobserved of (wf.observed_bit of listed seen bit)).mpr ⟨a, listed, v, seen, bit⟩
  · rintro ⟨σ, member, same⟩
    refine ⟨fun b => if b ∈ sys.unobserved t then σ b else ρ b, reads.mem member ?_, fun b shown => if_neg shown⟩
    intro b move
    by_cases hidden : b ∈ sys.unobserved t
    · exact (if_pos hidden).symm
    · rcases move with bit | input
      · obtain ⟨a, listed, v, seen, bitV⟩ := (wf.mem_unobserved of bit).mp hidden
        exact (same a listed v seen b bitV).trans (if_neg hidden).symm
      · exact absurd (List.mem_append_right _ input) hidden

theorem mem_equivalents (of : t.Of sys) (reads : states.Reads sys.moveBit) :
    ρ ∈ (sys.equivalents t states).members ↔
      ρ ∈ sys.statesMask.members ∧ ∃ σ ∈ states.members, σ ∈ sys.statesMask.members ∧ t.Same σ ρ := by
  have masked := reads.inter (sys.reads_states_mask.mono sys.state_subset_move)
  unfold equivalents
  rw [Region.members_inter, Set.mem_inter_iff, wf.mem_hide_unobserved of masked, and_comm]
  simp only [Region.members_inter, Set.mem_inter_iff, and_assoc]

theorem hide_others {s : Region} (reads : s.Reads sys.moveBit) :
    ρ ∈ (s.hide (sys.otherInputs t)).members ↔ ∃ σ ∈ s.members, sys.stateOf σ = sys.stateOf ρ ∧ t.Plays σ ρ := by
  rw [Region.mem_hide]
  constructor
  · rintro ⟨σ, member, agree⟩
    refine ⟨σ, member, Frame.state_of_eq_iff.mpr fun b state => agree b fun other => ?_, fun b acts => agree b (not_other acts)⟩
    exact (wf.laid.inputApart b (other_input other)).1 state
  · rintro ⟨σ, member, same, plays⟩
    rw [Frame.state_of_eq_iff] at same
    refine ⟨fun b => if b ∈ sys.otherInputs t then σ b else ρ b, reads.mem member ?_, fun b shown => if_neg shown⟩
    intro b move
    by_cases other : b ∈ sys.otherInputs t
    · exact (if_pos other).symm
    · refine Eq.trans ?_ (if_neg other).symm
      rcases move with state | input
      · exact same b state
      · rcases action_or_other t input with acts | hidden
        · exact plays b acts
        · exact absurd hidden other

theorem protocol_reads (t : Team) : (sys.protocolOf t).Reads sys.moveBit := by
  have reachable := wf.reachable_state_set.reads.mono (sys.state_subset_move.trans sys.move_subset_step)
  have pairs : ((sys.trans.inter sys.reachable).hide (sys.nextBits ++ sys.otherInputs t)).Reads sys.moveBit := by
    refine ((wf.transReads.inter reachable).hide _).mono ?_
    rintro b ⟨(state | next) | input, shown⟩
    · exact .inl state
    · exact absurd (List.mem_append_left _ next) shown
    · exact .inr input
  exact pairs.inter (sys.reads_inputs_mask.mono sys.input_subset_move)

theorem mem_protocol (of : t.Of sys) : ρ ∈ (sys.protocolOf t).members ↔ ρ ∈ sys.inputsMask.members ∧
    ∃ τ ∈ sys.trans.members, sys.Reachable (sys.stateOf τ) ∧ sys.stateOf τ = sys.stateOf ρ ∧ t.Plays τ ρ := by
  unfold protocolOf
  simp only [Region.members_inter, Set.mem_inter_iff, Region.mem_hide]
  constructor
  · rintro ⟨⟨τ, ⟨trans, reached⟩, agree⟩, inputs⟩
    refine ⟨inputs, τ, trans, wf.mem_reachable.mp reached, Frame.state_of_eq_iff.mpr fun b state => agree b fun hidden => ?_,
      fun b acts => agree b fun hidden => ?_⟩
    · rcases List.mem_append.mp hidden with next | other
      · exact Frame.state_not_next wf.laid state next
      · exact (wf.laid.inputApart b (other_input other)).1 state
    · rcases List.mem_append.mp hidden with next | other
      · exact (wf.laid.inputApart b (wf.action_bit of acts)).2 next
      · exact not_other acts other
  · rintro ⟨inputs, τ, trans, reached, same, plays⟩
    refine ⟨⟨fun b => if b ∈ sys.nextBits ++ sys.otherInputs t then τ b else ρ b, ?_, fun b shown => if_neg shown⟩, inputs⟩
    rw [Frame.state_of_eq_iff] at same
    have agree : ∀ b ∈ sys.stepBit, τ b = if b ∈ sys.nextBits ++ sys.otherInputs t then τ b else ρ b := by
      intro b step
      by_cases hidden : b ∈ sys.nextBits ++ sys.otherInputs t
      · exact (if_pos hidden).symm
      · refine Eq.trans ?_ (if_neg hidden).symm
        rcases step with (state | next) | input
        · exact same b state
        · exact absurd (List.mem_append_left _ next) hidden
        · rcases action_or_other t input with acts | other
          · exact plays b acts
          · exact absurd (List.mem_append_right _ other) hidden
    exact ⟨wf.transReads.mem trans agree, (wf.reachable_state_set.reads.mono
      (sys.state_subset_move.trans sys.move_subset_step)).mem (wf.mem_reachable.mpr reached) agree⟩

theorem protocol_inside (of : t.Of sys) : (sys.protocolOf t).members ⊆ sys.movesMask.members ∩ sys.reachable.members := by
  intro ρ member
  obtain ⟨inputs, τ, trans, reached, same, _⟩ := (wf.mem_protocol of).mp member
  have state := (Frame.mem_of_state sys.reads_states_mask same).mp (wf.trans_states trans)
  refine ⟨?_, wf.mem_reachable.mpr (same ▸ reached)⟩
  rw [Frame.movesMask, Region.members_inter]
  exact ⟨state, inputs⟩

theorem mem_forcing_moves {protocol : Region} (of : t.Of sys) (targetReads : target.Reads sys.moveBit) :
    ρ ∈ (sys.forcingMoves t protocol target moves).members ↔ ρ ∈ protocol.members ∧ ρ ∈ moves.members ∧
      ∀ τ ∈ sys.trans.members, sys.stateOf τ = sys.stateOf ρ → t.Plays τ ρ → sys.HasState target (sys.nextOf τ) := by
  have escapeReads : (sys.statesOutside (target.hide sys.inputBits)).Reads sys.stateBit :=
    sys.reads_states_mask.diff (Frame.reads_hide_inputs targetReads)
  have escapeMoves := escapeReads.mono sys.state_subset_move
  have escape : ∀ τ ∈ sys.trans.members, sys.HasState (sys.statesOutside (target.hide sys.inputBits)) (sys.nextOf τ) ↔
      ¬ sys.HasState target (sys.nextOf τ) := by
    intro τ trans
    rw [Frame.has_state_of_reads escapeReads, Frame.statesOutside, Region.members_diff, Set.mem_sdiff,
      Frame.mem_hide_inputs wf.laid targetReads]
    exact and_iff_right (wf.trans_next trans)
  unfold forcingMoves
  rw [Region.members_diff, Region.members_inter, Set.mem_sdiff, Set.mem_inter_iff, and_assoc,
    wf.hide_others (wf.reads_pre_inputs escapeMoves (Region.reads_univ _))]
  refine and_congr_right fun _ => and_congr_right fun _ => ?_
  constructor
  · intro never τ trans same plays
    by_contra out
    refine never ⟨τ, ?_, same, plays⟩
    rw [wf.mem_pre_inputs escapeMoves (Region.reads_univ _)]
    exact ⟨by simp, τ, trans, fun _ _ => rfl, (escape τ trans).mpr out⟩
  · rintro forced ⟨σ, leaves, same, plays⟩
    obtain ⟨_, τ, trans, agree, out⟩ := (wf.mem_pre_inputs escapeMoves (Region.reads_univ _)).mp leaves
    have here : sys.stateOf τ = sys.stateOf ρ := (Frame.state_of_eq_iff.mpr fun b state => agree b (.inl state)).trans same
    have acts : t.Plays τ ρ := Team.Plays.trans (fun b bit => agree b (.inr (wf.action_bit of bit))) plays
    exact (escape τ trans).mp out (forced τ trans here acts)

theorem forcing_reads {protocol : Region} (protocolReads : protocol.Reads sys.moveBit) (targetReads : target.Reads sys.moveBit)
    (movesReads : moves.Reads sys.moveBit) : (sys.forcingMoves t protocol target moves).Reads sys.moveBit := by
  have escapeReads : (sys.statesOutside (target.hide sys.inputBits)).Reads sys.moveBit :=
    (sys.reads_states_mask.diff (Frame.reads_hide_inputs targetReads)).mono sys.state_subset_move
  exact (protocolReads.inter movesReads).diff ((wf.reads_pre_inputs escapeReads (Region.reads_univ _)).hide_within _)

theorem mem_linked {s : Region} (of : t.Of sys) (reads : s.Reads sys.moveBit) :
    ρ ∈ ((t.singles.map sys.unobserved).foldl (fun r bits => r.union ((s.hide bits).inter sys.reachable)) s).members ↔
      ρ ∈ s.members ∨ ρ ∈ sys.reachable.members ∧ ∃ single ∈ t.singles, ∃ σ ∈ s.members, single.Same σ ρ := by
  rw [List.foldl_map, ← List.foldl_map (f := fun single => (s.hide (sys.unobserved single)).inter sys.reachable)
    (g := Region.union), Region.mem_fold_union]
  refine or_congr_right ?_
  constructor
  · rintro ⟨r, listed, member⟩
    obtain ⟨single, known, rfl⟩ := List.mem_map.mp listed
    rw [Region.members_inter] at member
    exact ⟨member.2, single, known, (wf.mem_hide_unobserved (Team.single_of of known) reads).mp member.1⟩
  · rintro ⟨reached, single, known, linked⟩
    refine ⟨_, List.mem_map_of_mem known, ?_⟩
    rw [Region.members_inter]
    exact ⟨(wf.mem_hide_unobserved (Team.single_of of known) reads).mpr linked, reached⟩

-- The states that chains of members link to some states hold these, and are closed under every member.
theorem common_equivalents_spec (of : t.Of sys) (reads : states.Reads sys.moveBit) :
    sys.StateSet (sys.commonEquivalents t states) ∧
      (sys.statesOf states).members ⊆ (sys.commonEquivalents t states).members ∧
      ∀ single ∈ t.singles, ∀ σ ∈ (sys.commonEquivalents t states).members, ∀ ρ ∈ sys.reachable.members,
        single.Same σ ρ → ρ ∈ (sys.commonEquivalents t states).members := by
  let link : Region → Counted Region := fun z =>
    pure ((t.singles.map sys.unobserved).foldl (fun r bits => r.union ((z.hide bits).inter sys.reachable)) z)
  have linked : ∀ z, sys.StateSet z → ∀ ρ, ρ ∈ (link z).value.members ↔
      ρ ∈ z.members ∨ ρ ∈ sys.reachable.members ∧ ∃ single ∈ t.singles, ∃ σ ∈ z.members, single.Same σ ρ :=
    fun z known ρ => wf.mem_linked of (known.reads.mono sys.state_subset_move)
  have steady : Region.Steady (Finset.range sys.space.size) sys.StateSet link := by
    refine ⟨fun z known => wf.state_set_range known, fun z known => ⟨fun ρ member => ?_, ?_⟩, fun y z knownY knownZ le ρ member => ?_⟩
    · rcases (linked z known ρ).mp member with before | ⟨reached, _⟩
      · exact known.inside before
      · exact wf.reachable_state_set.inside reached
    · have each : ∀ r ∈ (t.singles.map sys.unobserved).map fun bits => (z.hide bits).inter sys.reachable, r.Reads sys.stateBit := by
        intro r listed
        obtain ⟨bits, _, rfl⟩ := List.mem_map.mp listed
        exact (known.reads.hide_within bits).inter wf.reachable_state_set.reads
      have folded := Region.reads_fold_union known.reads each
      rwa [List.foldl_map] at folded
    · rw [linked z knownZ]
      exact ((linked y knownY ρ).mp member).imp (fun here => le here) fun ⟨reached, single, listed, σ, here, same⟩ =>
        ⟨reached, single, listed, σ, le here, same⟩
  have startSet := sys.states_of_state_set reads
  obtain ⟨known, above⟩ := Region.fixpoint_induct (n := sys.space.size)
    (P := fun z => (sys.statesOf states).members ⊆ z.members) steady.keeps
    (fun z known le ρ member => (linked z known ρ).mpr (.inl (le member))) startSet (Set.Subset.refl _)
  have fixed := Region.fixpoint_ascends steady startSet fun ρ member => (linked _ startSet ρ).mpr (.inl member)
  refine ⟨known, above, fun single listed σ here ρ reached same => ?_⟩
  have more := (linked _ known ρ).mpr (.inr ⟨reached, single, listed, σ, here, same⟩)
  rwa [fixed] at more

end WellFormed

end System

end Coalition
