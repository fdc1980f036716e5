import Mathlib.Logic.Relation
import Coalition.Proofs.Model.Build
import Coalition.Proofs.Region.Fixpoint

-- Images and preimages of regions are those of one successor relation, and the reachable region holds what its steps lead to.

set_option autoImplicit false

namespace Coalition

namespace Valuation

def on (ρ : Valuation) (bits : List Nat) : Valuation := fun v => bits.contains v && ρ v

def shift (τ : Valuation) (bits : List Nat) : Valuation := fun v => if v ∈ bits then τ (v + 1) else τ v

theorem zip_after (bits : List Nat) : bits.zip (bits.map (· + 1)) = bits.map fun b => (b, b + 1) := by
  induction bits with
  | nil => rfl
  | cons b rest ih => rw [List.map_cons, List.zip_cons_cons, ih, List.map_cons]

theorem on_apply {ρ : Valuation} {bits : List Nat} {b : Nat} (member : b ∈ bits) : ρ.on bits b = ρ b := by
  simp [on, member]

theorem on_eq_iff {ρ σ : Valuation} {bits : List Nat} : ρ.on bits = σ.on bits ↔ ∀ b ∈ bits, ρ b = σ b := by
  constructor
  · intro same b member
    have here := congrFun same b
    rwa [on_apply member, on_apply member] at here
  · intro agree
    funext b
    by_cases member : b ∈ bits
    · rw [on_apply member, on_apply member, agree b member]
    · simp [on, member]

theorem on_on (ρ : Valuation) (bits : List Nat) : (ρ.on bits).on bits = ρ.on bits :=
  on_eq_iff.mpr fun _ member => on_apply member

end Valuation

namespace Region

theorem mem_renamed {identity target : Region} {bits : List Nat} {τ : Valuation} (apart : ∀ b ∈ bits, b + 1 ∉ bits)
    (same : ∀ ρ, ρ ∈ identity.members ↔ ∀ b ∈ bits, ρ b = ρ (b + 1)) :
    τ ∈ ((target.inter identity).hide bits).members ↔ τ.shift bits ∈ target.members := by
  rw [mem_hide]
  constructor
  · rintro ⟨σ, inside, agree⟩
    rw [members_inter] at inside
    have shifted : τ.shift bits = σ := by
      funext v
      by_cases member : v ∈ bits
      · rw [Valuation.shift, if_pos member, ← agree _ (apart v member), (same σ).mp inside.2 v member]
      · rw [Valuation.shift, if_neg member, agree v member]
    exact shifted ▸ inside.1
  · intro inside
    refine ⟨τ.shift bits, ?_, fun v outside => by rw [Valuation.shift, if_neg outside]⟩
    rw [members_inter]
    refine ⟨inside, (same _).mpr fun b member => ?_⟩
    rw [Valuation.shift, Valuation.shift, if_pos member, if_neg (apart b member)]

theorem mem_unchanged {v : Variable} (paired : v.nextBits = v.bits.map (· + 1)) {ρ : Valuation} :
    ρ ∈ v.unchanged.members ↔ ∀ b ∈ v.bits, ρ b = ρ (b + 1) := by
  have zipped : v.bits.zip v.nextBits = v.bits.map fun b => (b, b + 1) := by
    rw [paired, Valuation.zip_after]
  rw [Variable.unchanged, mem_inter_all, zipped]
  simp only [List.map_map, List.forall_mem_map, Function.comp_apply]
  refine forall₂_congr fun b _ => ?_
  rw [mem_members, contains_iff, contains_test, contains_test]
  cases ρ b <;> cases ρ (b + 1) <;> simp

end Region

namespace Frame

variable {f : Frame}

def stateOf (f : Frame) (ρ : Valuation) : Valuation := ρ.on f.stateBits

-- The next state of a transition: every state bit reads its next bit.
def nextOf (f : Frame) (τ : Valuation) : Valuation := fun v =>
  match (f.stateBits.zip f.nextBits).lookup v with
  | some next => τ next
  | none => false

theorem state_of_eq_iff {ρ σ : Valuation} : f.stateOf ρ = f.stateOf σ ↔ ∀ b ∈ f.stateBits, ρ b = σ b :=
  Valuation.on_eq_iff

theorem state_of_state (ρ : Valuation) : f.stateOf (f.stateOf ρ) = f.stateOf ρ := Valuation.on_on ρ _

theorem next_bits_eq (laid : f.Laid) : f.nextBits = f.stateBits.map (· + 1) := by
  unfold nextBits stateBits
  rw [List.map_flatMap]
  exact List.flatMap_congr fun v member => (laid.states v member).2

theorem mem_next_bits (laid : f.Laid) {b : Nat} : b + 1 ∈ f.nextBits ↔ b ∈ f.stateBits := by
  rw [next_bits_eq laid, List.mem_map]
  constructor
  · rintro ⟨c, member, same⟩
    have equal : c = b := by omega
    exact equal ▸ member
  · exact fun member => ⟨b, member, rfl⟩

theorem next_of_apply (laid : f.Laid) (τ : Valuation) (b : Nat) : f.nextOf τ b = (f.stateBits.contains b && τ (b + 1)) := by
  have zipped : f.stateBits.zip f.nextBits = f.stateBits.map fun b => (b, b + 1) := by
    rw [next_bits_eq laid, Valuation.zip_after]
  unfold nextOf
  rw [zipped]
  have found : ∀ bits : List Nat, (bits.map fun b => (b, b + 1)).lookup b = if b ∈ bits then some (b + 1) else none := by
    intro bits
    induction bits with
    | nil => rfl
    | cons c rest ih =>
        rw [List.map_cons, List.lookup_cons, ih]
        by_cases same : b = c
        · simp [same]
        · have different : (b == c) = false := by simpa using same
          simp [same, different]
  rw [found]
  by_cases member : b ∈ f.stateBits
  · simp [member]
  · simp [member]

theorem next_of_eq (laid : f.Laid) (τ : Valuation) : f.nextOf τ = f.stateOf (τ.shift f.stateBits) := by
  funext b
  rw [next_of_apply laid, stateOf, Valuation.on]
  by_cases member : b ∈ f.stateBits
  · rw [Valuation.shift, if_pos member]
  · simp [member]

theorem state_of_next (laid : f.Laid) (τ : Valuation) : f.stateOf (f.nextOf τ) = f.nextOf τ := by
  rw [next_of_eq laid, state_of_state]

theorem next_of_congr (laid : f.Laid) {τ σ : Valuation} (agree : ∀ b ∈ f.nextBits, τ b = σ b) : f.nextOf τ = f.nextOf σ := by
  funext b
  rw [next_of_apply laid, next_of_apply laid]
  by_cases member : b ∈ f.stateBits
  · rw [agree _ ((mem_next_bits laid).mpr member)]
  · simp [member]

theorem mem_identity (laid : f.Laid) {ρ : Valuation} : ρ ∈ f.identity.members ↔ ∀ b ∈ f.stateBits, ρ b = ρ (b + 1) := by
  rw [f.identity_eq, Region.mem_inter_all]
  simp only [List.forall_mem_map]
  constructor
  · intro all b member
    obtain ⟨v, listed, bit⟩ := List.mem_flatMap.mp member
    exact (Region.mem_unchanged (laid.states v listed).2).mp (all v listed) b bit
  · intro all v listed
    exact (Region.mem_unchanged (laid.states v listed).2).mpr fun b bit => all b (List.mem_flatMap.mpr ⟨v, listed, bit⟩)

section

variable {s : Region}

theorem mem_state_of (reads : s.Reads f.stateBit) {ρ : Valuation} : f.stateOf ρ ∈ s.members ↔ ρ ∈ s.members :=
  reads.congr fun _ member => Valuation.on_apply member

theorem mem_of_state (reads : s.Reads f.stateBit) {ρ σ : Valuation} (same : f.stateOf ρ = f.stateOf σ) :
    ρ ∈ s.members ↔ σ ∈ s.members := by
  rw [← mem_state_of reads, same, mem_state_of reads]

theorem preimage_state (reads : s.Reads f.stateBit) : Set.preimage f.stateOf s.members = s.members := Set.ext fun _ => mem_state_of reads

def HasState (f : Frame) (s : Region) (u : Valuation) : Prop := ∃ σ ∈ s.members, f.stateOf σ = f.stateOf u

theorem mem_hide_inputs (laid : f.Laid) (reads : s.Reads f.moveBit) {ρ : Valuation} :
    ρ ∈ (s.hide f.inputBits).members ↔ f.HasState s ρ := by
  rw [Region.mem_hide]
  constructor
  · rintro ⟨σ, member, agree⟩
    exact ⟨σ, member, state_of_eq_iff.mpr fun b state => agree b fun input => (laid.inputApart b input).1 state⟩
  · rintro ⟨σ, member, same⟩
    rw [state_of_eq_iff] at same
    refine ⟨fun b => if b ∈ f.inputBits then σ b else ρ b, reads.mem member ?_, fun b outside => if_neg outside⟩
    rintro b (state | input)
    · rw [if_neg fun input => (laid.inputApart b input).1 state, same b state]
    · exact (if_pos input).symm

theorem reads_hide_inputs (reads : s.Reads f.moveBit) : (s.hide f.inputBits).Reads f.stateBit := by
  refine (reads.hide f.inputBits).mono ?_
  rintro b ⟨state | input, outside⟩
  · exact state
  · exact absurd input outside

theorem has_state_of_reads (reads : s.Reads f.stateBit) {u : Valuation} : f.HasState s u ↔ u ∈ s.members := by
  constructor
  · rintro ⟨σ, member, same⟩
    exact (mem_of_state reads same).mp member
  · exact fun member => ⟨u, member, rfl⟩

theorem has_state_congr {u w : Valuation} (same : f.stateOf u = f.stateOf w) : f.HasState s u ↔ f.HasState s w := by
  unfold HasState
  rw [same]

theorem mem_states_of (laid : f.Laid) (reads : s.Reads f.moveBit) {ρ : Valuation} :
    ρ ∈ (f.statesOf s).members ↔ ρ ∈ f.statesMask.members ∧ f.HasState s ρ := by
  rw [statesOf, Region.members_inter, Set.mem_inter_iff, mem_hide_inputs laid reads, and_comm]

theorem exists_move (laid : f.Laid) (σ τ : Valuation) : ∃ μ, f.stateOf μ = f.stateOf σ ∧ ∀ b ∈ f.inputBits, μ b = τ b := by
  refine ⟨fun b => if b ∈ f.inputBits then τ b else σ b, ?_, fun b input => if_pos input⟩
  exact state_of_eq_iff.mpr fun b state => if_neg fun input => (laid.inputApart b input).1 state

theorem states_of_state_set (f : Frame) (reads : s.Reads f.moveBit) : f.StateSet (f.statesOf s) :=
  ⟨Region.inter_subset_right _ _, (reads_hide_inputs reads).inter f.reads_states_mask⟩

end

theorem reads_identity (laid : f.Laid) : f.identity.Reads (f.stateBit ∪ f.nextBit) := by
  apply Region.Reads.of_mem
  intro ρ σ agree member
  rw [mem_identity laid] at member ⊢
  intro b state
  rw [← agree b (.inl state), ← agree (b + 1) (.inr ((mem_next_bits laid).mpr state)), member b state]

theorem state_not_next (laid : f.Laid) {b : Nat} (state : b ∈ f.stateBits) : b ∉ f.nextBits := by
  intro next
  obtain ⟨c, other, rfl⟩ := List.mem_map.mp (next_bits_eq laid ▸ next)
  exact laid.apart c other state

theorem move_not_next (laid : f.Laid) {b : Nat} (member : b ∈ f.moveBit) : b ∉ f.nextBits := by
  rcases member with state | input
  · exact state_not_next laid state
  · exact (laid.inputApart b input).2

section

variable {r target : Region} {ρ τ : Valuation}

theorem mem_moved (laid : f.Laid) (reads : target.Reads f.moveBit) :
    τ ∈ (((target.hide f.inputBits).inter f.identity).hide f.stateBits).members ↔ f.HasState target (f.nextOf τ) := by
  rw [Region.mem_renamed laid.apart fun ρ => mem_identity laid, mem_hide_inputs laid reads]
  apply has_state_congr
  rw [state_of_next laid, next_of_eq laid]

theorem reads_moved (laid : f.Laid) (reads : target.Reads f.moveBit) :
    (((target.hide f.inputBits).inter f.identity).hide f.stateBits).Reads f.stepBit := by
  have hidden := (reads_hide_inputs reads).mono (f.state_subset_move.trans f.move_subset_step)
  exact (hidden.inter ((reads_identity laid).mono Set.subset_union_left)).hide_within _

theorem mem_relation_pre (laid : f.Laid) (known : r.Reads f.stepBit) (reads : target.Reads f.stateBit) :
    ρ ∈ ((f.relation r []).pre target).members ↔
      ∃ τ ∈ r.members, f.stateOf τ = f.stateOf ρ ∧ f.nextOf τ ∈ target.members := by
  have same : (f.relation r []).pre target =
      (r.inter (((target.hide f.inputBits).inter f.identity).hide f.stateBits)).hide (f.nextBits ++ f.inputBits) := by
    simp [relation, Relation.pre]
  have moves := reads.mono f.state_subset_move
  rw [same, Region.mem_hide]
  simp only [Region.members_inter, Set.mem_inter_iff, mem_moved laid moves, has_state_of_reads reads]
  constructor
  · rintro ⟨τ, ⟨inside, next⟩, agree⟩
    refine ⟨τ, inside, state_of_eq_iff.mpr fun b state => agree b fun listed => ?_, next⟩
    rcases List.mem_append.mp listed with later | input
    · exact state_not_next laid state later
    · exact (laid.inputApart b input).1 state
  · rintro ⟨τ, inside, here, next⟩
    rw [state_of_eq_iff] at here
    have agree : ∀ b ∈ f.stepBit, τ b = if b ∈ f.nextBits ++ f.inputBits then τ b else ρ b := by
      intro b step
      by_cases hidden : b ∈ f.nextBits ++ f.inputBits
      · exact (if_pos hidden).symm
      · rcases step with (state | later) | input
        · exact (here b state).trans (if_neg hidden).symm
        · exact absurd (List.mem_append_left _ later) hidden
        · exact absurd (List.mem_append_right _ input) hidden
    refine ⟨_, ⟨known.mem inside agree, ?_⟩, fun b shown => if_neg shown⟩
    rwa [← next_of_congr laid fun b later => agree b (.inl (.inr later))]

theorem reads_relation_pre (laid : f.Laid) (known : r.Reads f.stepBit) (reads : target.Reads f.stateBit) :
    ((f.relation r []).pre target).Reads f.stateBit := by
  refine Region.Reads.of_mem fun ρ σ agree member => ?_
  rw [mem_relation_pre laid known reads] at member ⊢
  rwa [← state_of_eq_iff.mpr agree]

end

theorem mem_code {bits : List Nat} {index : Nat} {ρ : Valuation} :
    ρ ∈ (Variable.code bits index).members ↔ ∀ entry ∈ bits.zipIdx, ρ entry.1 = index.testBit entry.2 := by
  rw [Variable.code, Region.mem_cell]
  simp only [List.forall_mem_map]

theorem mem_mask_next {vars : List Variable} (paired : ∀ v ∈ vars, v.nextBits = v.bits.map (· + 1)) {σ τ : Valuation}
    (agree : ∀ v ∈ vars, ∀ b ∈ v.bits, σ b = τ (b + 1)) : τ ∈ (maskAll vars true).members ↔ σ ∈ (maskAll vars false).members := by
  unfold maskAll
  rw [Region.mem_inter_all, Region.mem_inter_all]
  simp only [List.forall_mem_map]
  refine forall₂_congr fun v member => ?_
  have value : ∀ index, τ ∈ (v.valueRegion true index).members ↔ σ ∈ (v.valueRegion false index).members := by
    intro index
    unfold Variable.valueRegion
    rw [mem_code, mem_code]
    simp only [Variable.bitsAt, if_true, Bool.false_eq_true, if_false, paired v member, List.zipIdx_map, List.forall_mem_map]
    refine forall₂_congr fun entry zipped => ?_
    rw [agree v member entry.1 (List.fst_mem_of_mem_zipIdx zipped)]
    rfl
  unfold Variable.mask
  rw [Region.mem_union_all, Region.mem_union_all]
  simp only [List.mem_map, List.mem_range, exists_exists_and_eq_and, value]

theorem mem_next_mask (laid : f.Laid) {τ : Valuation} : τ ∈ f.nextMask.members ↔ f.nextOf τ ∈ f.statesMask.members := by
  rw [f.next_mask_eq, f.states_mask_eq]
  refine mem_mask_next (fun v member => (laid.states v member).2) fun v member b bit => ?_
  have state : b ∈ f.stateBits := bits_state member b bit
  simp [next_of_apply laid, state]

theorem exists_step (laid : f.Laid) (x y : Valuation) :
    ∃ τ : Valuation, (∀ b, b ∉ f.nextBits → τ b = x b) ∧ ∀ b ∈ f.stateBits, τ (b + 1) = y b :=
  ⟨fun b => if b ∈ f.nextBits then y (b - 1) else x b, fun _ outside => if_neg outside,
    fun _ state => if_pos ((mem_next_bits laid).mpr state)⟩

theorem mem_next_of (laid : f.Laid) {s : Region} (reads : s.Reads f.stateBit) {τ y : Valuation}
    (agree : ∀ b ∈ f.stateBits, τ (b + 1) = y b) : f.nextOf τ ∈ s.members ↔ y ∈ s.members := by
  refine reads.congr fun b state => ?_
  have bit : b ∈ f.stateBits := state
  simp [next_of_apply laid, bit, agree b bit]

end Frame

namespace Frame.StateSet

variable {f : Frame} {r s : Region}

theorem empty (f : Frame) : f.StateSet .empty := ⟨by simp, Region.reads_empty _⟩

theorem mask (f : Frame) : f.StateSet f.statesMask := ⟨Set.Subset.refl _, f.reads_states_mask⟩

theorem inter (known : f.StateSet r) (reads : s.Reads f.stateBit) : f.StateSet (r.inter s) :=
  ⟨(Region.inter_subset_left r s).trans known.inside, known.reads.inter reads⟩

theorem within (known : f.StateSet r) (reads : s.Reads f.stateBit) : f.StateSet (s.inter r) :=
  ⟨(Region.inter_subset_right s r).trans known.inside, reads.inter known.reads⟩

theorem union (left : f.StateSet r) (right : f.StateSet s) : f.StateSet (r.union s) := by
  refine ⟨?_, left.reads.union right.reads⟩
  rw [Region.members_union]
  exact Set.union_subset left.inside right.inside

theorem diff (known : f.StateSet r) (reads : s.Reads f.stateBit) : f.StateSet (r.diff s) := by
  refine ⟨?_, known.reads.diff reads⟩
  rw [Region.members_diff]
  exact Set.sdiff_subset.trans known.inside

theorem outside (reads : s.Reads f.stateBit) : f.StateSet (f.statesOutside s) := (mask f).diff reads

theorem moves (known : f.StateSet r) : r.Reads f.moveBit := known.reads.mono f.state_subset_move

theorem fold_union {regions : List Region} (known : f.StateSet r) (each : ∀ s ∈ regions, f.StateSet s) :
    f.StateSet (regions.foldl Region.union r) := by
  refine ⟨fun ρ member => ?_, Region.reads_fold_union known.reads fun s listed => (each s listed).reads⟩
  obtain here | ⟨s, listed, inside⟩ := Region.mem_fold_union.mp member
  · exact known.inside here
  · exact (each s listed).inside inside

theorem union_all {regions : List Region} (each : ∀ r ∈ regions, f.StateSet r) : f.StateSet (Region.unionAll regions) :=
  (empty f).fold_union each

theorem states_of (laid : f.Laid) (known : f.StateSet r) : f.statesOf r = r := by
  refine Region.members_injective (Set.ext fun ρ => ?_)
  rw [mem_states_of laid known.moves, has_state_of_reads known.reads]
  exact and_iff_right_of_imp fun member => known.inside member

theorem reads_bits (known : f.StateSet r) : r.Reads (f.stateBits.toFinset : Set Nat) :=
  known.reads.mono fun _ state => Finset.mem_coe.mpr (List.mem_toFinset.mpr state)

end Frame.StateSet

theorem Frame.weight_less (f : Frame) (r : Region) : r.weight f.stateBits.toFinset < Nat.pow 2 f.stateBits.length + 1 :=
  Nat.lt_succ_of_le ((Region.weight_bound _ r).trans (Nat.pow_le_pow_right Nat.zero_lt_two (List.toFinset_card_le _)))

namespace System

variable {sys : System} {ρ τ : Valuation} {target moves source : Region}

-- Some transition leads from one state to the other.
def Step (sys : System) (s u : Valuation) : Prop := ∃ τ ∈ sys.trans.members, sys.stateOf τ = s ∧ sys.nextOf τ = u

-- Steps lead to the state from an initial one.
def Reachable (sys : System) (s : Valuation) : Prop :=
  ∃ ι ∈ sys.init.members, Relation.ReflTransGen sys.Step (sys.stateOf ι) s

theorem Reachable.step {s u : Valuation} (here : sys.Reachable s) (step : sys.Step s u) : sys.Reachable u := by
  obtain ⟨ι, start, linked⟩ := here
  exact ⟨ι, start, linked.tail step⟩

theorem Reachable.next (here : sys.Reachable (sys.stateOf τ)) (trans : τ ∈ sys.trans.members) :
    sys.Reachable (sys.nextOf τ) := by
  obtain ⟨ι, start, linked⟩ := here
  exact ⟨ι, start, linked.tail ⟨τ, trans, rfl, rfl⟩⟩

namespace WellFormed

variable (wf : sys.WellFormed)

include wf

theorem fairness_states : sys.fairness.map (·.members) = (sys.fairness.map (·.members)).map (Set.preimage sys.stateOf) := by
  rw [List.map_map]
  exact List.map_congr_left fun c listed => (Frame.preimage_state (wf.fairness c listed).reads).symm

theorem trans_states (member : τ ∈ sys.trans.members) : τ ∈ sys.statesMask.members := (wf.transInside member).1.1

theorem trans_inputs (member : τ ∈ sys.trans.members) : τ ∈ sys.inputsMask.members := (wf.transInside member).1.2

theorem trans_next (member : τ ∈ sys.trans.members) : sys.nextOf τ ∈ sys.statesMask.members :=
  (Frame.mem_next_mask wf.laid).mp (wf.transInside member).2

theorem trans_agree {σ : Valuation} (member : τ ∈ sys.trans.members) (states : ∀ b ∈ sys.stateBits, τ b = σ b)
    (inputs : ∀ b ∈ sys.inputBits, τ b = σ b) (next : ∀ b ∈ sys.nextBits, τ b = σ b) : σ ∈ sys.trans.members := by
  refine wf.transReads.mem member ?_
  rintro b ((state | later) | input)
  · exact states b state
  · exact next b later
  · exact inputs b input

theorem mem_pre_inputs (targetReads : target.Reads sys.moveBit) (movesReads : moves.Reads sys.moveBit) :
    ρ ∈ (sys.preInputs target moves).members ↔ ρ ∈ moves.members ∧
      ∃ τ ∈ sys.trans.members, (∀ b ∈ sys.moveBit, τ b = ρ b) ∧ sys.HasState target (sys.nextOf τ) := by
  unfold Dynamics.preInputs
  rw [Region.mem_hide]
  simp only [Region.members_inter]
  constructor
  · rintro ⟨τ, ⟨⟨trans, played⟩, moved⟩, agree⟩
    have same : ∀ b ∈ sys.moveBit, τ b = ρ b := fun b member => agree b (Frame.move_not_next wf.laid member)
    exact ⟨movesReads.mem played same, τ, trans, same, (Frame.mem_moved wf.laid targetReads).mp moved⟩
  · rintro ⟨played, τ, trans, same, moved⟩
    let joined : Valuation := fun b => if b ∈ sys.nextBits then τ b else ρ b
    have agree : ∀ b ∈ sys.stepBit, τ b = joined b := by
      rintro b ((state | next) | input)
      · exact (same b (.inl state)).trans (if_neg (Frame.state_not_next wf.laid state)).symm
      · exact (if_pos next).symm
      · exact (same b (.inr input)).trans (if_neg (wf.laid.inputApart b input).2).symm
    refine ⟨joined, ⟨⟨wf.transReads.mem trans agree, ?_⟩, ?_⟩, fun b outside => if_neg outside⟩
    · exact movesReads.mem played fun b member => (if_neg (Frame.move_not_next wf.laid member)).symm
    · exact ((Frame.reads_moved wf.laid targetReads).congr agree).mp ((Frame.mem_moved wf.laid targetReads).mpr moved)

theorem reads_pre_inputs (targetReads : target.Reads sys.moveBit) (movesReads : moves.Reads sys.moveBit) :
    (sys.preInputs target moves).Reads sys.moveBit := by
  have all := (wf.transReads.inter (movesReads.mono sys.move_subset_step)).inter (Frame.reads_moved wf.laid targetReads)
  refine (all.hide sys.nextBits).mono ?_
  rintro b ⟨(state | next) | input, outside⟩
  · exact .inl state
  · exact absurd next outside
  · exact .inr input

theorem mem_post_sub (sourceReads : source.Reads sys.moveBit) (movesReads : moves.Reads sys.moveBit) :
    ρ ∈ (sys.postSub source moves).members ↔
      ∃ τ ∈ sys.trans.members, τ ∈ moves.members ∧ τ ∈ source.members ∧ sys.nextOf τ = sys.stateOf ρ := by
  unfold Dynamics.postSub
  simp only [Region.mem_hide, Region.members_inter, Set.mem_inter_iff]
  constructor
  · rintro ⟨σ, ⟨⟨τ, ⟨⟨trans, played⟩, from_⟩, image⟩, same⟩, agree⟩
    refine ⟨τ, trans, played, from_, ?_⟩
    rw [Frame.mem_identity wf.laid] at same
    rw [Frame.next_of_eq wf.laid, Frame.state_of_eq_iff]
    intro b state
    have next := (Frame.mem_next_bits wf.laid).mpr state
    have outside : b + 1 ∉ sys.stateBits ++ sys.inputBits := by
      intro listed
      rcases List.mem_append.mp listed with other | input
      · exact wf.laid.apart b state other
      · exact (wf.laid.inputApart _ input).2 next
    rw [Valuation.shift, if_pos state, image _ outside, ← same b state, agree b (Frame.state_not_next wf.laid state)]
  · rintro ⟨τ, trans, played, from_, leads⟩
    let renamed : Valuation := fun b => if b ∈ sys.nextBits then τ b else ρ b
    let joined : Valuation := fun b => if b ∈ sys.stateBits ++ sys.inputBits then τ b else renamed b
    have agree : ∀ b ∈ sys.stepBit, τ b = joined b := by
      intro b member
      by_cases move : b ∈ sys.stateBits ++ sys.inputBits
      · exact (if_pos move).symm
      · have next : b ∈ sys.nextBits := by
          rcases member with (state | next) | input
          · exact absurd (List.mem_append_left _ state) move
          · exact next
          · exact absurd (List.mem_append_right _ input) move
        simp only [joined, renamed, if_neg move, if_pos next]
    have agreeMove : ∀ b ∈ sys.moveBit, τ b = joined b := fun b member => agree b (sys.move_subset_step member)
    refine ⟨renamed, ⟨⟨joined, ⟨⟨wf.transReads.mem trans agree, movesReads.mem played agreeMove⟩,
      sourceReads.mem from_ agreeMove⟩, fun b outside => if_neg outside⟩, ?_⟩, fun b outside => if_neg outside⟩
    rw [Frame.mem_identity wf.laid]
    intro b state
    rw [Frame.next_of_eq wf.laid, Frame.state_of_eq_iff] at leads
    have here := leads b state
    rw [Valuation.shift, if_pos state] at here
    simp only [renamed, if_neg (Frame.state_not_next wf.laid state), if_pos ((Frame.mem_next_bits wf.laid).mpr state), here]

theorem post_sub_state_set (sourceReads : source.Reads sys.moveBit) (movesReads : moves.Reads sys.moveBit) :
    sys.StateSet (sys.postSub source moves) := by
  constructor
  · intro ρ member
    obtain ⟨τ, trans, _, _, leads⟩ := (wf.mem_post_sub sourceReads movesReads).mp member
    rw [← Frame.mem_state_of sys.reads_states_mask, ← leads]
    exact wf.trans_next trans
  · have played := (wf.transReads.inter (movesReads.mono sys.move_subset_step)).inter (sourceReads.mono sys.move_subset_step)
    have image : (((sys.trans.inter moves).inter source).hide (sys.stateBits ++ sys.inputBits)).Reads
        (sys.stateBit ∪ sys.nextBit) := by
      refine (played.hide _).mono ?_
      rintro b ⟨(state | next) | input, outside⟩
      · exact .inl state
      · exact .inr next
      · exact absurd (List.mem_append_right _ input) outside
    refine ((image.inter (Frame.reads_identity wf.laid)).hide sys.nextBits).mono ?_
    rintro b ⟨state | next, outside⟩
    · exact state
    · exact absurd next outside

theorem mem_post (reads : source.Reads sys.moveBit) :
    ρ ∈ (sys.post source).members ↔ ∃ τ ∈ sys.trans.members, τ ∈ source.members ∧ sys.nextOf τ = sys.stateOf ρ := by
  unfold Dynamics.post
  rw [wf.mem_post_sub reads (Region.reads_univ _)]
  simp

theorem post_state_set (reads : source.Reads sys.moveBit) : sys.StateSet (sys.post source) :=
  wf.post_sub_state_set reads (Region.reads_univ _)

theorem mem_post_states (reads : source.Reads sys.stateBit) :
    ρ ∈ (sys.post source).members ↔ ∃ σ ∈ source.members, sys.Step (sys.stateOf σ) (sys.stateOf ρ) := by
  rw [wf.mem_post (reads.mono sys.state_subset_move)]
  constructor
  · rintro ⟨τ, trans, from_, leads⟩
    exact ⟨τ, from_, τ, trans, rfl, leads⟩
  · rintro ⟨σ, from_, τ, trans, here, leads⟩
    exact ⟨τ, trans, (Frame.mem_of_state reads here).mpr from_, leads⟩

theorem reads_range {s : Region} (reads : s.Reads sys.stepBit) : s.Reads (Finset.range sys.space.size : Finset Nat) := by
  refine reads.mono fun b member => ?_
  have less := wf.laid.declared b member
  rw [Finset.mem_coe, Finset.mem_range, Space.size]
  omega

theorem state_set_range {s : Region} (known : sys.StateSet s) : s.Reads (Finset.range sys.space.size : Finset Nat) :=
  wf.reads_range (known.reads.mono (sys.state_subset_move.trans sys.move_subset_step))

theorem reach_from_spec (reads : source.Reads sys.moveBit) : sys.StateSet (sys.reachFrom source) ∧
    ∀ ρ, ρ ∈ (sys.reachFrom source).members ↔
      ∃ σ ∈ (sys.statesOf source).members, Relation.ReflTransGen sys.Step (sys.stateOf σ) (sys.stateOf ρ) := by
  have startSet := sys.states_of_state_set reads
  let round : Set Valuation →o Set Valuation :=
    ⟨fun X => (sys.statesOf source).members ∪ {ρ | ∃ σ ∈ X, sys.Step (sys.stateOf σ) (sys.stateOf ρ)},
      fun X Y le => Set.union_subset_union_right _ fun ρ ⟨σ, inside, step⟩ => ⟨σ, le inside, step⟩⟩
  have steps : ∀ r, sys.StateSet r → ((sys.statesOf source).union (sys.post r)).members = round r.members := by
    intro r known
    ext ρ
    rw [Region.members_union, Set.mem_union, wf.mem_post_states known.reads]
    rfl
  have keeps : ∀ r, sys.StateSet r → sys.StateSet ((sys.statesOf source).union (sys.post r)) := by
    intro r known
    have next := wf.post_state_set (known.reads.mono sys.state_subset_move)
    refine ⟨?_, startSet.reads.union next.reads⟩
    rw [Region.members_union]
    exact Set.union_subset startSet.inside next.inside
  obtain ⟨known, same⟩ := Region.members_least (f := fun z => pure ((sys.statesOf source).union (sys.post z)))
    (fun r known => wf.state_set_range known) keeps steps ⟨by simp, Region.reads_empty _⟩
  refine ⟨known, fun ρ => ?_⟩
  have whole : (sys.reachFrom source).members = OrderHom.lfp round := same
  rw [whole]
  constructor
  · intro member
    suffices all : OrderHom.lfp round ⊆ {ρ | ∃ σ ∈ (sys.statesOf source).members,
        Relation.ReflTransGen sys.Step (sys.stateOf σ) (sys.stateOf ρ)} from all member
    apply OrderHom.lfp_le
    rintro ρ (start | ⟨u, ⟨σ, start, linked⟩, step⟩)
    · exact ⟨ρ, start, .refl⟩
    · exact ⟨σ, start, linked.tail step⟩
  · rintro ⟨σ, start, linked⟩
    suffices all : ∀ u, Relation.ReflTransGen sys.Step (sys.stateOf σ) u → ∀ ρ, sys.stateOf ρ = u → ρ ∈ OrderHom.lfp round from
      all _ linked ρ rfl
    intro u linked
    induction linked with
    | refl =>
        intro ρ same
        rw [← OrderHom.map_lfp]
        exact .inl ((Frame.mem_of_state startSet.reads same).mpr start)
    | @tail v w _ step ih =>
        intro ρ same
        have before : sys.stateOf v = v := by
          obtain ⟨τ, _, here, _⟩ := step
          rw [← here, Frame.state_of_state]
        rw [← OrderHom.map_lfp]
        exact .inr ⟨v, ih v before, by rw [before, same]; exact step⟩

theorem reachable_state_set : sys.StateSet sys.reachable := by
  rw [sys.reachable_eq]
  exact (wf.reach_from_spec (wf.init.reads.mono sys.state_subset_move)).1

theorem mem_reachable : ρ ∈ sys.reachable.members ↔ sys.Reachable (sys.stateOf ρ) := by
  have initReads := wf.init.reads.mono sys.state_subset_move
  rw [sys.reachable_eq, (wf.reach_from_spec initReads).2]
  unfold Reachable
  constructor
  · rintro ⟨σ, start, linked⟩
    rw [Frame.mem_states_of wf.laid initReads, Frame.has_state_of_reads wf.init.reads] at start
    exact ⟨σ, start.2, linked⟩
  · rintro ⟨σ, start, linked⟩
    refine ⟨σ, ?_, linked⟩
    rw [Frame.mem_states_of wf.laid initReads, Frame.has_state_of_reads wf.init.reads]
    exact ⟨wf.init.inside start, start⟩

theorem reachable_state {s : Valuation} (reached : sys.Reachable s) : sys.stateOf s = s := by
  obtain ⟨ι, _, linked⟩ := reached
  cases linked with
  | refl => exact Frame.state_of_state ι
  | tail _ step =>
      obtain ⟨τ, _, _, rfl⟩ := step
      exact Frame.state_of_next wf.laid τ

theorem mem_of_reachable {s : Valuation} (reached : sys.Reachable s) : s ∈ sys.reachable.members :=
  wf.mem_reachable.mpr ((wf.reachable_state reached).symm ▸ reached)

end WellFormed

end System

end Coalition
