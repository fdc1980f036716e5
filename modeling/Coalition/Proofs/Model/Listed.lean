import Coalition.Proofs.Model.Compiled
import Coalition.Proofs.Model.Describe
import Coalition.Proofs.Model.States
import Coalition.Proofs.Region.Listing

-- The states of any region are listed once each, whatever else the region reads, and the list is as long as they are counted, as long as
-- a list has room for them.

set_option autoImplicit false

namespace Coalition

namespace Frame

variable {f : Frame} {s : Region} {ρ : Valuation}

theorem mem_keep_states (laid : f.Laid) : ρ ∈ ((f.statesOf s).keep f.stateBits).members ↔
    ρ ∈ f.statesMask.members ∧ ∃ τ ∈ s.members, f.stateOf τ = f.stateOf ρ := by
  rw [Region.mem_keep]
  constructor
  · rintro ⟨σ, inside, agree⟩
    rw [statesOf, Region.members_inter] at inside
    obtain ⟨τ, member, same⟩ := Region.mem_hide.mp inside.1
    refine ⟨f.reads_states_mask.mem inside.2 agree, τ, member, state_of_eq_iff.mpr fun b state => ?_⟩
    rw [same b fun input => (laid.inputApart b input).1 state, agree b state]
  · rintro ⟨masked, τ, member, same⟩
    have agree := state_of_eq_iff.mp same
    refine ⟨τ, ?_, agree⟩
    rw [statesOf, Region.members_inter]
    exact ⟨Region.hide_subset _ _ member, f.reads_states_mask.mem masked fun b state => (agree b state).symm⟩

theorem mem_listed_states (laid : f.Laid) {c : Region} : c ∈ (f.statesOf s).pickAll f.stateBits ↔
    ∃ ρ ∈ s.members, f.stateOf ρ ∈ f.statesMask.members ∧ c = f.only ρ := by
  obtain ⟨sound, complete⟩ := Region.pick_all_spec (f.statesOf s) f.stateBits
  constructor
  · intro listed
    obtain ⟨μ, kept, rfl⟩ := sound c listed
    obtain ⟨masked, τ, member, same⟩ := (mem_keep_states laid).mp kept
    refine ⟨τ, member, ?_, (only_eq_iff.mpr same).symm⟩
    rw [same]
    exact (mem_state_of f.reads_states_mask).mpr masked
  · rintro ⟨ρ, member, masked, rfl⟩
    refine complete ρ ((mem_keep_states laid).mpr ⟨?_, ρ, member, rfl⟩)
    exact (mem_state_of f.reads_states_mask).mp masked

-- The states that are listed are all, where no path counts as none.
theorem list_states_whole (counts : Space.Counts (f.statesOf s) f.stateBits) : Yields (f.listStates s) (· = f.allStates s) := by
  intro all done
  exact Except.ok.inj (done.symm.trans (Space.listing_whole (Space.listing_counts done counts)))

end Frame

/-- A listing of the projection of a region on some variables holds full assignments of members, none twice and apart from each other. It
is as long as the projection is counted just when a list has room for every path, as it has when the count is small enough; then it
ends, and the whole projection is listed. So each state of a region is listed once, whatever other bits the region reads. -/
theorem listings_count {space : Space} {vars : List Nat} (distinct : vars.Nodup) (known : ∀ v ∈ vars, v < space.size) (s : Region) :
    (∀ all, space.pickAll s (vars.map Int.ofNat) = .ok all →
      all.Nodup ∧ (all.Pairwise fun c d => Disjoint c.members d.members) ∧
      (∀ c ∈ all, ∃ μ ∈ s.members, c = Region.cell (vars.map fun v => (v, μ v))) ∧
      (all.length = space.count s vars ↔ Space.Fits s vars)) ∧
    (Space.Fits s vars → ∃ all, space.pickAll s (vars.map Int.ofNat) = .ok all ∧
      ∀ ρ, ρ ∈ (s.keep vars).members ↔ ∃ c ∈ all, ρ ∈ c.members) ∧
    (space.count s vars ≤ 2 ^ 44 → Space.Fits s vars) ∧
    ∀ (d : Description) (sys : System), d.build = .ok sys → Space.Fits (sys.statesOf s) sys.stateBits →
      ∃ all, sys.listStates s = .ok all ∧ all.length = sys.countStates s ∧ all.Nodup ∧
        ∀ c, c ∈ all ↔ ∃ ρ ∈ s.members, sys.stateOf ρ ∈ sys.statesMask.members ∧ c = sys.only ρ := by
  have length := Space.length_listed s distinct known
  rw [Space.pick_all_listing s known, ← length]
  refine ⟨fun all done => ?_, fun fits => ⟨_, Space.listing_whole fits, fun ρ => Region.mem_listed⟩, Space.fits_of_few, fun d sys built fits => ?_⟩
  · obtain ⟨part, whole⟩ := Space.listing_part done
    refine ⟨(Region.pick_all_nodup s distinct).sublist part, (Region.listed_apart distinct).sublist part, fun c listed => ?_, whole⟩
    exact Region.mem_pick_all.mp (part.subset listed)
  · have laid := (d.build_well_formed sys built).laid
    refine ⟨_, Space.listing_whole fits, Space.length_listed _ laid.stateNodup laid.bits_known, Region.pick_all_nodup _ laid.stateNodup, ?_⟩
    exact fun c => Frame.mem_listed_states laid

theorem listings_count_dimmer : (∃ all, Space.pickAll ⟨3, 1⟩ .univ [2, 0] = .ok all ∧ all.Nodup ∧
      all.length = Space.count ⟨3, 1⟩ .univ [2, 0]) ∧
    ∃ sys : System, System.dimmer.build = .ok sys ∧ ∃ all, sys.listStates .univ = .ok all ∧ all.length = sys.countStates .univ := by
  obtain ⟨each, ends, _, states⟩ := @listings_count ⟨3, 1⟩ [2, 0] (by decide) (by decide) .univ
  have fits : Space.Fits .univ [2, 0] := Space.fits_of_length _ (by decide)
  obtain ⟨all, done, _⟩ := ends fits
  obtain ⟨distinct, _, _, whole⟩ := each all done
  refine ⟨⟨all, done, distinct, whole.mpr fits⟩, ?_⟩
  obtain ⟨sys, built⟩ := System.dimmer_builds
  have short : sys.stateBits.length ≤ 44 := by
    rw [Frame.stateBits, (System.dimmer.build_compiled sys built).stateVars]
    decide
  obtain ⟨all, done, length, _⟩ := states System.dimmer sys built (Space.fits_of_length _ short)
  exact ⟨sys, built, all, done, length⟩

end Coalition
