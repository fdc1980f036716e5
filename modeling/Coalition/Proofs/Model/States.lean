import Coalition.Proofs.Model.Step
import Coalition.Proofs.Region.Count

-- A state is listed as the cell of its bits, each state of a region once, and a region has as many states as are counted.

set_option autoImplicit false

namespace Coalition

namespace Region

theorem keep_of_reads {s : Region} {vars : List Nat} (reads : s.Reads {v | v ∈ vars}) : s.keep vars = s := by
  refine members_injective (Set.ext fun ρ => mem_keep.trans ⟨?_, fun member => ⟨ρ, member, fun _ _ => rfl⟩⟩)
  rintro ⟨σ, member, agree⟩
  exact reads.mem member agree

end Region

namespace Frame

variable {f : Frame} {s : Region} {ρ σ : Valuation}

-- The states of a region, however many there are.
def allStates (f : Frame) (s : Region) : List Region := (f.statesOf s).pickAll f.stateBits

def only (f : Frame) (ρ : Valuation) : Region := Region.cell (f.stateBits.map fun b => (b, ρ b))

theorem mem_only : σ ∈ (f.only ρ).members ↔ f.stateOf σ = f.stateOf ρ := by
  rw [only, Region.mem_cell_of, state_of_eq_iff]

theorem only_reads (f : Frame) (ρ : Valuation) : (f.only ρ).Reads f.stateBit := Region.reads_cell_of _ ρ

theorem only_eq_iff : f.only ρ = f.only σ ↔ f.stateOf ρ = f.stateOf σ := by
  constructor
  · intro same
    exact mem_only.mp (same ▸ mem_only.mpr rfl)
  · intro same
    refine Region.members_injective (Set.ext fun μ => ?_)
    rw [mem_only, mem_only, same]

theorem only_state (ρ : Valuation) : f.only (f.stateOf ρ) = f.only ρ := only_eq_iff.mpr (state_of_state ρ)

-- A valuation that is false on all bits but those of a state.
def IsState (f : Frame) (s : Valuation) : Prop := f.stateOf s = s

theorem only_injective {u w : Valuation} (first : f.IsState u) (second : f.IsState w) (same : f.only u = f.only w) : u = w :=
  first.symm.trans ((only_eq_iff.mp same).trans second)

theorem Laid.bits_known (laid : f.Laid) : ∀ b ∈ f.stateBits, b < f.space.size := by
  intro b listed
  have less := laid.declared b (.inl (.inl listed))
  rw [Space.size]
  omega

section

variable (laid : f.Laid) (known : f.StateSet s)

include laid known

theorem mem_all_states {c : Region} : c ∈ f.allStates s ↔ ∃ u ∈ s.members, f.IsState u ∧ c = f.only u := by
  have listed := Region.pick_all_spec s f.stateBits
  rw [Region.keep_of_reads known.reads] at listed
  rw [allStates, known.states_of laid]
  constructor
  · intro member
    obtain ⟨μ, inside, rfl⟩ := listed.1 c member
    exact ⟨f.stateOf μ, (mem_state_of known.reads).mpr inside, state_of_state μ, (only_state μ).symm⟩
  · rintro ⟨u, inside, _, rfl⟩
    exact listed.2 u inside

theorem only_listed (member : ρ ∈ s.members) : f.only ρ ∈ f.allStates s :=
  (mem_all_states laid known).mpr ⟨f.stateOf ρ, (mem_state_of known.reads).mpr member, state_of_state ρ, (only_state ρ).symm⟩

theorem all_states_list : ∃ us : List Valuation, f.allStates s = us.map f.only ∧ us.Nodup ∧ ∀ u, u ∈ us ↔ u ∈ s.members ∧ f.IsState u := by
  have distinct : (f.allStates s).Nodup := Region.pick_all_nodup _ laid.stateNodup
  obtain ⟨us, states, same⟩ : ∃ us : List Valuation, (∀ u ∈ us, u ∈ s.members ∧ f.IsState u) ∧ us.map f.only = f.allStates s := by
    have each := fun c listed => (mem_all_states (c := c) laid known).mp listed
    generalize f.allStates s = cells at each
    induction cells with
    | nil => exact ⟨[], by simp, rfl⟩
    | cons c rest ih =>
        obtain ⟨⟨u, inside, state, rfl⟩, others⟩ := List.forall_mem_cons.mp each
        obtain ⟨us, states, same⟩ := ih others
        exact ⟨u :: us, List.forall_mem_cons.mpr ⟨⟨inside, state⟩, states⟩, by rw [List.map_cons, same]⟩
  refine ⟨us, same.symm, .of_map f.only (same ▸ distinct), fun u => ⟨states u, fun ⟨inside, state⟩ => ?_⟩⟩
  have listed := (mem_all_states laid known).mpr ⟨u, inside, state, rfl⟩
  rw [← same] at listed
  obtain ⟨w, member, equal⟩ := List.mem_map.mp listed
  exact only_injective (states w member).2 state equal ▸ member

theorem count_states : f.countStates s = s.weight f.stateBits.toFinset := by
  rw [countStates, Space.count_weight _ laid.stateNodup laid.bits_known, known.states_of laid, Region.keep_of_reads known.reads]

theorem length_le_count {us : List Valuation} (distinct : us.Nodup) (states : ∀ u ∈ us, u ∈ s.members ∧ f.IsState u) :
    us.length ≤ f.countStates s := by
  rw [count_states laid known, Region.weight]
  let on (u : Valuation) : Finset Nat := f.stateBits.toFinset.filter fun b => u b = true
  have bit : ∀ (u : Valuation), ∀ b ∈ f.stateBits, decide (b ∈ on u) = u b := by
    intro u b state
    simp [on, state]
  have apart : (us.map on).Nodup := by
    refine distinct.map_on fun u first w second same => ?_
    refine (states u first).2.symm.trans (.trans (state_of_eq_iff.mpr fun b state => ?_) (states w second).2)
    rw [← bit u b state, ← bit w b state, same]
  have inside : (us.map on).toFinset ⊆ s.cells f.stateBits.toFinset := by
    intro set listed
    obtain ⟨u, member, rfl⟩ := List.mem_map.mp (List.mem_toFinset.mp listed)
    refine Finset.mem_filter.mpr ⟨Finset.mem_powerset.mpr (Finset.filter_subset _ _), ?_⟩
    exact known.reads.mem (states u member).1 fun b state => (bit u b state).symm
  have fewer := Finset.card_le_card inside
  rwa [List.toFinset_card_of_nodup apart, List.length_map] at fewer

end

end Frame

end Coalition
