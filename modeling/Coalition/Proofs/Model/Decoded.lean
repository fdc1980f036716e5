import Coalition.Proofs.Model.Meaning

-- Where bits are decoded to values, the images and preimages of regions are those of the transition relation between values, and what is
-- reached is at the end of its paths.

set_option autoImplicit false

namespace Coalition

abbrev Assignment (vars : List Variable) : Type := {v : Variable // v ∈ vars} → String

theorem Variable.Stores.unique {v : Variable} {next : Bool} {x y : String} {ρ σ : Valuation} (first : v.Stores next x ρ)
    (second : v.Stores next y σ) (wide : (v.bitsAt next).length = width v.domain.length) (agree : ∀ b ∈ v.bitsAt next, ρ b = σ b) : x = y := by
  obtain ⟨place, here, stored⟩ := first
  obtain ⟨placeToo, there, storedToo⟩ := second
  have less := (List.getElem?_eq_some_iff.mp here).1
  have lessToo := (List.getElem?_eq_some_iff.mp there).1
  have moved : ∀ entry ∈ (v.bitsAt next).zipIdx, ρ entry.1 = placeToo.testBit entry.2 := fun entry listed =>
    (agree entry.1 (List.fst_mem_of_mem_zipIdx listed)).trans (storedToo entry listed)
  obtain rfl := Variable.code_unique wide less lessToo (Frame.mem_code.mpr stored) (Frame.mem_code.mpr moved)
  exact Option.some.inj (here.symm.trans there)

namespace Assignment

variable {vars : List Variable} {a c : Assignment vars} {next : Bool} {ρ σ : Valuation}

-- The valuation stores the values, on current or on next bits.
def Coded (a : Assignment vars) (next : Bool) (ρ : Valuation) : Prop := ∀ v : {v : Variable // v ∈ vars}, v.1.Stores next (a v) ρ

theorem exists_coded (masked : ρ ∈ (maskAll vars next).members) : ∃ a : Assignment vars, a.Coded next ρ := by
  have each := Frame.mem_mask_all.mp masked
  choose value stored using fun v : {v : Variable // v ∈ vars} => each v.1 v.2
  exact ⟨value, stored⟩

theorem Coded.masked (coded : a.Coded next ρ) : ρ ∈ (maskAll vars next).members :=
  Frame.mem_mask_all.mpr fun v listed => ⟨_, coded ⟨v, listed⟩⟩

theorem Coded.of_agree (coded : a.Coded next ρ) (agree : ∀ v ∈ vars, ∀ b ∈ v.bitsAt next, ρ b = σ b) : a.Coded next σ := by
  intro v
  obtain ⟨place, value, stored⟩ := coded v
  refine ⟨place, value, fun entry listed => ?_⟩
  rw [← agree v.1 v.2 entry.1 (List.fst_mem_of_mem_zipIdx listed)]
  exact stored entry listed

theorem Coded.agree (first : a.Coded next ρ) (second : a.Coded next σ) (nodup : ∀ v ∈ vars, v.domain.Nodup) :
    ∀ v ∈ vars, ∀ b ∈ v.bitsAt next, ρ b = σ b :=
  fun v listed _ bit => (first ⟨v, listed⟩).same (second ⟨v, listed⟩) (nodup v listed) bit

theorem Coded.unique (first : a.Coded next ρ) (second : c.Coded next ρ)
    (wide : ∀ v ∈ vars, (v.bitsAt next).length = width v.domain.length) : a = c :=
  funext fun v => (first v).unique (second v) (wide v.1 v.2) fun _ _ => rfl

end Assignment

namespace Frame

abbrev State (f : Frame) : Type := Assignment f.stateVars

abbrev Input (f : Frame) : Type := Assignment f.inputVars

def statesIn (f : Frame) (r : Region) : Set f.State := {s | ∃ ρ ∈ r.members, s.Coded false ρ}

def movesIn (f : Frame) (r : Region) : Set (f.State × f.Input) := {move | ∃ ρ ∈ r.members, move.1.Coded false ρ ∧ move.2.Coded false ρ}

variable {f : Frame} {s u : f.State} {i : f.Input} {r : Region} {ρ σ τ : Valuation}

theorem state_set_of_moves (laid : f.Laid) (inside : r.members ⊆ f.movesMask.members) (reads : r.Reads f.moveBit) :
    f.StateSet (r.hide f.inputBits) := by
  refine ⟨fun ρ member => ?_, reads_hide_inputs reads⟩
  obtain ⟨σ, here, same⟩ := (mem_hide_inputs laid reads).mp member
  have masked := inside here
  rw [movesMask, Region.members_inter] at masked
  exact (mem_of_state f.reads_states_mask same).mp masked.1

theorem state_next_iff (laid : f.Laid) : u.Coded true τ ↔ u.Coded false (f.nextOf τ) := by
  refine forall_congr' fun v => exists_congr fun place => and_congr_right fun _ => ?_
  simp only [Variable.bitsAt, if_true, Bool.false_eq_true, if_false, (laid.states v.1 v.2).2, List.zipIdx_map, List.forall_mem_map]
  refine forall₂_congr fun entry listed => ?_
  have state : entry.1 ∈ f.stateBits := bits_state v.2 _ (List.fst_mem_of_mem_zipIdx listed)
  rw [next_of_apply laid]
  simp [state]

section

variable (sized : ∀ v ∈ f.vars, v.Sized)

include sized

theorem state_coded_iff (coded : s.Coded false ρ) : s.Coded false σ ↔ f.stateOf σ = f.stateOf ρ := by
  rw [state_of_eq_iff]
  constructor
  · intro other b state
    obtain ⟨v, listed, bit⟩ := List.mem_flatMap.mp state
    exact other.agree coded (fun v listed => (sized v (List.mem_append_left _ listed)).nodup) v listed b bit
  · intro same
    exact coded.of_agree fun v listed b bit => (same b (bits_state listed b bit)).symm

theorem input_coded_iff (coded : i.Coded false ρ) : i.Coded false σ ↔ ∀ b ∈ f.inputBits, σ b = ρ b := by
  constructor
  · intro other b input
    obtain ⟨v, listed, bit⟩ := List.mem_flatMap.mp input
    exact other.agree coded (fun v listed => (sized v (List.mem_append_right _ listed)).nodup) v listed b bit
  · intro same
    exact coded.of_agree fun v listed b bit => (same b (bits_input listed b bit)).symm

theorem state_unique (first : s.Coded false ρ) (second : u.Coded false σ) (same : f.stateOf ρ = f.stateOf σ) : s = u :=
  ((state_coded_iff sized first).mpr same.symm).unique second fun v listed => (sized v (List.mem_append_left _ listed)).bits

theorem mem_moves_in (reads : r.Reads f.moveBit) (state : s.Coded false ρ) (input : i.Coded false ρ) :
    (s, i) ∈ f.movesIn r ↔ ρ ∈ r.members := by
  refine ⟨?_, fun member => ⟨ρ, member, state, input⟩⟩
  rintro ⟨σ, member, stateToo, inputToo⟩
  refine reads.mem member ?_
  rintro b (bit | bit)
  · exact state_of_eq_iff.mp ((state_coded_iff sized state).mp stateToo) b bit
  · exact (input_coded_iff sized input).mp inputToo b bit

theorem mem_states_in (coded : s.Coded false ρ) : s ∈ f.statesIn r ↔ f.HasState r ρ := by
  constructor
  · rintro ⟨σ, member, other⟩
    exact ⟨σ, member, (state_coded_iff sized coded).mp other⟩
  · rintro ⟨σ, member, same⟩
    exact ⟨σ, member, (state_coded_iff sized coded).mpr same⟩

end

end Frame

namespace System

variable {sys : System} {source target moves : Region} {τ : Valuation}

-- A transition leads from a state with an input to a state.
def Leads (sys : System) (s : sys.State) (i : sys.Input) (u : sys.State) : Prop :=
  ∃ τ ∈ sys.trans.members, s.Coded false τ ∧ i.Coded false τ ∧ u.Coded true τ

def StepsTo (sys : System) (s u : sys.State) : Prop := ∃ i, sys.Leads s i u

-- Transitions lead to the state from an initial one.
def Reaches (sys : System) (u : sys.State) : Prop := ∃ s ∈ sys.statesIn sys.init, Relation.ReflTransGen sys.StepsTo s u

theorem pre_projection (sys : System) (target : Region) : sys.pre target = (sys.preInputs target .univ).hide sys.inputBits := by
  simp only [Dynamics.pre, Dynamics.relation, Relation.pre, Frame.relation, Dynamics.preInputs, List.flatMap_nil, List.append_nil,
    List.foldl_nil, Region.hide_append]
  have all : sys.trans.inter .univ = sys.trans := Region.members_injective (by rw [Region.members_inter, Region.members_univ, Set.inter_univ])
  rw [all]

namespace WellFormed

variable (wf : sys.WellFormed) (sized : ∀ v ∈ sys.vars, v.Sized)

include wf

theorem exists_values (trans : τ ∈ sys.trans.members) : ∃ (s : sys.State) (i : sys.Input) (u : sys.State),
    s.Coded false τ ∧ i.Coded false τ ∧ u.Coded true τ := by
  obtain ⟨⟨states, inputs⟩, next⟩ := wf.transInside trans
  obtain ⟨s, here⟩ := Assignment.exists_coded (sys.states_mask_eq ▸ states)
  obtain ⟨i, played⟩ := Assignment.exists_coded (sys.inputs_mask_eq ▸ inputs)
  obtain ⟨u, leads⟩ := Assignment.exists_coded (sys.next_mask_eq ▸ next)
  exact ⟨s, i, u, here, played, leads⟩

theorem pre_inputs_move_set (targetReads : target.Reads sys.moveBit) (movesReads : moves.Reads sys.moveBit) :
    (sys.preInputs target moves).members ⊆ sys.movesMask.members ∧ (sys.preInputs target moves).Reads sys.moveBit := by
  refine ⟨fun ρ member => ?_, wf.reads_pre_inputs targetReads movesReads⟩
  obtain ⟨_, τ, trans, agree, _⟩ := (wf.mem_pre_inputs targetReads movesReads).mp member
  rw [Frame.movesMask, Region.members_inter]
  exact ⟨sys.reads_states_mask.mem (wf.trans_states trans) fun b bit => agree b (.inl bit),
    sys.reads_inputs_mask.mem (wf.trans_inputs trans) fun b bit => agree b (.inr bit)⟩

theorem pre_state_set (reads : target.Reads sys.moveBit) : sys.StateSet (sys.pre target) := by
  obtain ⟨inside, known⟩ := wf.pre_inputs_move_set reads (Region.reads_univ _)
  rw [pre_projection]
  exact Frame.state_set_of_moves wf.laid inside known

-- Images and preimages are adjoint: one meets the target where the other meets the source.
theorem post_meets_iff (sourceReads : source.Reads sys.stateBit) (targetReads : target.Reads sys.stateBit) :
    (sys.post source).meets target = true ↔ source.meets (sys.pre target) = true := by
  have moveReads := sourceReads.mono sys.state_subset_move
  have targetMoves := targetReads.mono sys.state_subset_move
  have pairs := (wf.pre_inputs_move_set targetMoves (Region.reads_univ _)).2
  rw [Region.meets_members, Region.meets_members, pre_projection]
  constructor
  · rintro ⟨ρ, image, into⟩
    obtain ⟨τ, trans, from_, leads⟩ := (wf.mem_post moveReads).mp image
    refine ⟨τ, from_, (Frame.mem_hide_inputs wf.laid pairs).mpr ⟨τ, ?_, rfl⟩⟩
    refine (wf.mem_pre_inputs targetMoves (Region.reads_univ _)).mpr ⟨by simp, τ, trans, fun _ _ => rfl, ρ, into, ?_⟩
    rw [leads, Frame.state_of_state]
  · rintro ⟨ρ, from_, before⟩
    obtain ⟨σ, member, same⟩ := (Frame.mem_hide_inputs wf.laid pairs).mp before
    obtain ⟨_, τ, trans, agree, κ, into, leads⟩ := (wf.mem_pre_inputs targetMoves (Region.reads_univ _)).mp member
    have here : sys.stateOf τ = sys.stateOf ρ := (Frame.state_of_eq_iff.mpr fun b bit => agree b (.inl bit)).trans same
    refine ⟨κ, (wf.mem_post moveReads).mpr ⟨τ, trans, (Frame.mem_of_state sourceReads here).mpr from_, ?_⟩, into⟩
    rw [leads, Frame.state_of_next wf.laid]

include sized

theorem states_in_post (reads : source.Reads sys.moveBit) :
    sys.statesIn (sys.post source) = {u | ∃ s i, (s, i) ∈ sys.movesIn source ∧ sys.Leads s i u} := by
  ext u
  constructor
  · rintro ⟨ρ, member, coded⟩
    obtain ⟨τ, trans, inside, same⟩ := (wf.mem_post reads).mp member
    obtain ⟨s, i, w, here, played, _⟩ := wf.exists_values trans
    refine ⟨s, i, ⟨τ, inside, here, played⟩, τ, trans, here, played, (Frame.state_next_iff wf.laid).mpr ?_⟩
    rw [Frame.state_coded_iff sized coded, Frame.state_of_next wf.laid, same]
  · rintro ⟨s, i, known, τ, trans, here, played, leads⟩
    have inside := (Frame.mem_moves_in sized reads here played).mp known
    refine ⟨sys.nextOf τ, (wf.mem_post reads).mpr ⟨τ, trans, inside, (Frame.state_of_next wf.laid τ).symm⟩, ?_⟩
    exact (Frame.state_next_iff wf.laid).mp leads

theorem moves_in_pre_inputs (targetReads : target.Reads sys.moveBit) (movesReads : moves.Reads sys.moveBit) :
    sys.movesIn (sys.preInputs target moves) =
      {move | move ∈ sys.movesIn moves ∧ ∃ u ∈ sys.statesIn target, sys.Leads move.1 move.2 u} := by
  ext ⟨s, i⟩
  constructor
  · rintro ⟨ρ, member, here, played⟩
    obtain ⟨inside, τ, trans, agree, into⟩ := (wf.mem_pre_inputs targetReads movesReads).mp member
    obtain ⟨_, _, u, _, _, leads⟩ := wf.exists_values trans
    have state : s.Coded false τ := (Frame.state_coded_iff sized here).mpr (Frame.state_of_eq_iff.mpr fun b bit => agree b (.inl bit))
    have input : i.Coded false τ := (Frame.input_coded_iff sized played).mpr fun b bit => agree b (.inr bit)
    exact ⟨⟨ρ, inside, here, played⟩, u, (Frame.mem_states_in sized ((Frame.state_next_iff wf.laid).mp leads)).mpr into,
      τ, trans, state, input, leads⟩
  · rintro ⟨known, u, into, τ, trans, here, played, leads⟩
    have inside := (Frame.mem_moves_in sized movesReads here played).mp known
    refine ⟨τ, (wf.mem_pre_inputs targetReads movesReads).mpr ⟨inside, τ, trans, fun _ _ => rfl, ?_⟩, here, played⟩
    exact (Frame.mem_states_in sized ((Frame.state_next_iff wf.laid).mp leads)).mp into

theorem states_in_pre (reads : target.Reads sys.moveBit) :
    sys.statesIn (sys.pre target) = {s | ∃ i, ∃ u ∈ sys.statesIn target, sys.Leads s i u} := by
  obtain ⟨masked, known⟩ := wf.pre_inputs_move_set reads (Region.reads_univ _)
  have pairs := wf.moves_in_pre_inputs sized reads (Region.reads_univ _)
  rw [pre_projection]
  ext s
  constructor
  · rintro ⟨ρ, member, coded⟩
    obtain ⟨σ, inside, same⟩ := (Frame.mem_hide_inputs wf.laid known).mp member
    have legal := masked inside
    rw [Frame.movesMask, Region.members_inter] at legal
    obtain ⟨i, played⟩ := Assignment.exists_coded (sys.inputs_mask_eq ▸ legal.2)
    have move : (s, i) ∈ sys.movesIn (sys.preInputs target .univ) :=
      ⟨σ, inside, (Frame.state_coded_iff sized coded).mpr same, played⟩
    rw [pairs] at move
    exact ⟨i, move.2⟩
  · rintro ⟨i, u, into, τ, trans, here, played, leads⟩
    have move : (s, i) ∈ sys.movesIn (sys.preInputs target .univ) := by
      rw [pairs]
      exact ⟨⟨τ, by simp, here, played⟩, u, into, τ, trans, here, played, leads⟩
    obtain ⟨σ, inside, state, _⟩ := move
    exact ⟨σ, Region.hide_subset _ _ inside, state⟩

theorem path_decoded {s : sys.State} {σ : Valuation} (here : s.Coded false σ) {w : Valuation}
    (linked : Relation.ReflTransGen sys.Step (sys.stateOf σ) w) :
    sys.stateOf w = w ∧ ∃ u : sys.State, u.Coded false w ∧ Relation.ReflTransGen sys.StepsTo s u := by
  induction linked with
  | refl => exact ⟨Frame.state_of_state σ, s, (Frame.state_coded_iff sized here).mpr (Frame.state_of_state σ), .refl⟩
  | tail _ step ih =>
      obtain ⟨_, u, coded, path⟩ := ih
      obtain ⟨τ, trans, rfl, rfl⟩ := step
      obtain ⟨_, i, v, _, played, leads⟩ := wf.exists_values trans
      have state : u.Coded false τ := (Frame.state_coded_iff sized coded).mpr (Frame.state_of_state τ).symm
      exact ⟨Frame.state_of_next wf.laid τ, v, (Frame.state_next_iff wf.laid).mp leads, path.tail ⟨i, τ, trans, state, played, leads⟩⟩

theorem path_coded {s u : sys.State} {σ : Valuation} (here : s.Coded false σ) (path : Relation.ReflTransGen sys.StepsTo s u) :
    ∃ w, u.Coded false w ∧ sys.stateOf w = w ∧ Relation.ReflTransGen sys.Step (sys.stateOf σ) w := by
  induction path with
  | refl => exact ⟨sys.stateOf σ, (Frame.state_coded_iff sized here).mpr (Frame.state_of_state σ), Frame.state_of_state σ, .refl⟩
  | tail _ step ih =>
      obtain ⟨w, coded, state, linked⟩ := ih
      obtain ⟨i, τ, trans, before, _, leads⟩ := step
      have same : sys.stateOf τ = w := ((Frame.state_coded_iff sized coded).mp before).trans state
      exact ⟨sys.nextOf τ, (Frame.state_next_iff wf.laid).mp leads, Frame.state_of_next wf.laid τ, linked.tail ⟨τ, trans, same, rfl⟩⟩

theorem states_in_reach_from (reads : source.Reads sys.moveBit) :
    sys.statesIn (sys.reachFrom source) = {u | ∃ s ∈ sys.statesIn source, Relation.ReflTransGen sys.StepsTo s u} := by
  obtain ⟨_, reached⟩ := wf.reach_from_spec reads
  ext u
  constructor
  · rintro ⟨ρ, member, coded⟩
    obtain ⟨σ, start, linked⟩ := (reached ρ).mp member
    obtain ⟨masked, has⟩ := (Frame.mem_states_of wf.laid reads).mp start
    obtain ⟨s, here⟩ := Assignment.exists_coded (sys.states_mask_eq ▸ masked)
    obtain ⟨_, v, codedToo, path⟩ := wf.path_decoded sized here linked
    obtain rfl := Frame.state_unique sized codedToo coded (Frame.state_of_state ρ)
    obtain ⟨μ, inside, same⟩ := has
    exact ⟨s, ⟨μ, inside, (Frame.state_coded_iff sized here).mpr same⟩, path⟩
  · rintro ⟨s, ⟨σ, inside, here⟩, path⟩
    obtain ⟨w, coded, state, linked⟩ := wf.path_coded sized here path
    refine ⟨w, (reached w).mpr ⟨σ, ?_, state.symm ▸ linked⟩, coded⟩
    exact (Frame.mem_states_of wf.laid reads).mpr ⟨sys.states_mask_eq ▸ here.masked, σ, inside, rfl⟩

theorem reaches_iff {s : sys.State} {ρ : Valuation} (coded : s.Coded false ρ) : sys.Reaches s ↔ sys.Reachable (sys.stateOf ρ) := by
  have reached := wf.states_in_reach_from sized (wf.init.reads.mono sys.state_subset_move)
  rw [← sys.reachable_eq] at reached
  rw [← wf.mem_reachable, ← Frame.has_state_of_reads wf.reachable_state_set.reads, ← Frame.mem_states_in sized coded, reached]
  rfl

end WellFormed

end System

end Coalition
