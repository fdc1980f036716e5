import Coalition.Proofs.Model.Compiled
import Coalition.Proofs.Model.Describe
import Coalition.Proofs.Model.States
import Coalition.Proofs.Region.Least

-- A pick is the least member, cut down to the variables asked for.

set_option autoImplicit false

namespace Coalition

namespace Frame

variable {f : Frame} {s : Region}

theorem pick_state_one (laid : f.Laid) (some : (s.members ∩ f.statesMask.members).Nonempty) :
    ∃ σ ∈ s.members ∩ f.statesMask.members, f.pickState s = Option.some (f.only σ) := by
  have nonempty : (f.statesOf s).members.Nonempty := by
    rw [statesOf, Region.members_inter]
    exact some.mono (Set.inter_subset_inter_left _ (Region.hide_subset _ _))
  obtain ⟨μ, inside, picked⟩ := Region.pick_spec nonempty f.stateBits
  rw [statesOf, Region.members_inter] at inside
  obtain ⟨σ, member, same⟩ := Region.mem_hide.mp inside.1
  have agree : ∀ b ∈ f.stateBits, σ b = μ b := fun b state => same b fun input => (laid.inputApart b input).1 state
  refine ⟨σ, ⟨member, f.reads_states_mask.mem inside.2 fun b state => (agree b state).symm⟩, picked.trans (congrArg Option.some ?_)⟩
  exact only_eq_iff.mpr (state_of_eq_iff.mpr fun b state => (agree b state).symm)

theorem pick_move_one (some : (s.members ∩ f.movesMask.members).Nonempty) :
    ∃ σ ∈ s.members ∩ f.movesMask.members, ∃ r, f.pickMove s = Option.some r ∧
      ∀ ρ, ρ ∈ r.members ↔ f.stateOf ρ = f.stateOf σ ∧ ∀ b ∈ f.inputBits, ρ b = σ b := by
  have same : (f.movesOf s).members = s.members ∩ f.movesMask.members := by
    simp only [movesOf, movesMask, Region.members_inter, Set.inter_assoc]
  obtain ⟨σ, inside, picked⟩ := Region.pick_spec (same ▸ some) (f.stateBits ++ f.inputBits)
  refine ⟨σ, same ▸ inside, _, picked, fun ρ => ?_⟩
  rw [Region.mem_cell_of, List.forall_mem_append, state_of_eq_iff]

end Frame

/-- On a region that is not empty the walk ends, in one way, at the least member, and the pick is that member cut down to the variables
asked for: a part of the projection that every construction of the region leads to. Of a region with a well-formed state or move, whatever
else it reads, one such state or move of a member is picked. -/
theorem picks_least {space : Space} {vars : List Nat} (known : ∀ v ∈ vars, v < space.size) (s : Region) :
    (s.members.Nonempty → ∃ path : Path, (s.diagram.Walk path ∧ ∀ other, s.diagram.Walk other → other = path) ∧
      s.Least (Region.valueOn path) ∧ ∃ r, r = Region.cell (vars.map fun v => (v, Region.valueOn path v)) ∧
        r.members ⊆ (s.keep vars).members ∧
        ∀ t : Region, t.members = s.members → space.pick t (vars.map Int.ofNat) = .ok r ∧ t.pick vars = some r) ∧
    ∀ (d : Description) (sys : System), d.build = .ok sys →
      ((s.members ∩ sys.statesMask.members).Nonempty → ∃ σ ∈ s.members ∩ sys.statesMask.members, ∃ r, sys.pickState s = some r ∧
        ∀ ρ, ρ ∈ r.members ↔ sys.stateOf ρ = sys.stateOf σ) ∧
      ((s.members ∩ sys.movesMask.members).Nonempty → ∃ σ ∈ s.members ∩ sys.movesMask.members, ∃ r, sys.pickMove s = some r ∧
        ∀ ρ, ρ ∈ r.members ↔ sys.stateOf ρ = sys.stateOf σ ∧ ∀ b ∈ sys.inputBits, ρ b = σ b) := by
  constructor
  · intro nonempty
    obtain ⟨walk, least⟩ := Region.least_walk nonempty
    refine ⟨s.diagram.leastPath, ⟨walk, fun other walked => walked.path_eq⟩, least, _, rfl, fun ρ inside => ?_, fun t same => ?_⟩
    · exact Region.mem_keep.mpr ⟨_, Region.least_member least, fun v listed => (Region.mem_cell_of.mp inside v listed).symm⟩
    · obtain rfl := Region.members_injective same
      exact ⟨Space.pick_known nonempty known, Region.pick_of_least nonempty least vars⟩
  · intro d sys built
    have laid := (d.build_well_formed sys built).laid
    refine ⟨fun some => ?_, Frame.pick_move_one⟩
    obtain ⟨σ, inside, picked⟩ := Frame.pick_state_one laid some
    exact ⟨σ, inside, _, picked, fun ρ => Frame.mem_only⟩

theorem picks_least_dimmer : ∃ sys : System, System.dimmer.build = .ok sys ∧
    (∃ path r, sys.movesMask.diagram.Walk path ∧ Space.pick ⟨3, 1⟩ sys.movesMask [2, 1] = .ok r) ∧
    (∃ r, sys.pickState sys.movesMask = some r) ∧ ∃ r, sys.pickMove sys.movesMask = some r := by
  have works : (do
      let sys ← System.dimmer.build
      return sys.movesMask.isEmpty).toOption = some false := by decide +kernel
  obtain ⟨sys, built, rest⟩ := ok_of_bind (ok_of_to_option works)
  have nonempty : sys.movesMask.members.Nonempty := Region.not_empty_members.mp (Except.ok.inj rest)
  have states : (sys.movesMask.members ∩ sys.statesMask.members).Nonempty := by
    rw [Frame.movesMask, Region.members_inter] at nonempty ⊢
    exact nonempty.mono fun ρ inside => ⟨inside, inside.1⟩
  obtain ⟨picks, picksOf⟩ := @picks_least ⟨3, 1⟩ [2, 1] (by decide) sys.movesMask
  obtain ⟨path, ⟨walk, _⟩, _, r, _, _, picked⟩ := picks nonempty
  obtain ⟨ofStates, ofMoves⟩ := picksOf System.dimmer sys built
  obtain ⟨_, _, u, pickedState, _⟩ := ofStates states
  obtain ⟨_, _, w, pickedMove, _⟩ := ofMoves (by rwa [Set.inter_self])
  exact ⟨sys, built, ⟨path, r, walk, (picked _ rfl).1⟩, ⟨u, pickedState⟩, w, pickedMove⟩

end Coalition
