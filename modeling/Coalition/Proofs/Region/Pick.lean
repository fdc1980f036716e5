import Coalition.Proofs.Region.Members
import Coalition.Region.Pick

-- The least member of a region belongs to it, and a pick is its cell.

set_option autoImplicit false

namespace Coalition

namespace Diagram

theorem value_on_after {path : Path} {var v : Nat} (value : Bool) (different : v ≠ var) :
    Region.valueOn ((var, value) :: path) v = Region.valueOn path v := by
  have apart : (v == var) = false := by simpa using different
  simp [Region.valueOn, List.lookup_cons, apart]

theorem value_on_first {path : Path} {var : Nat} (value : Bool) : Region.valueOn ((var, value) :: path) var = value := by
  simp [Region.valueOn]

theorem holds_least_path {d : Diagram} (canonical : d.Canonical) (some : d ≠ .leaf false) :
    d.holds (Region.valueOn d.leastPath) = true := by
  induction d with
  | leaf value =>
      cases value with
      | true => rfl
      | false => exact absurd rfl some
  | node var low high lowIh highIh =>
      obtain ⟨different, lowAbove, highAbove, lowCanonical, highCanonical⟩ := canonical
      have later : ∀ (path : Path) (value : Bool) (v : Nat), var + 1 ≤ v →
          Region.valueOn ((var, value) :: path) v = Region.valueOn path v := by
        intro path value v le
        exact value_on_after value (by omega)
      by_cases none : low = .leaf false
      · have highSome : high ≠ .leaf false := fun same => different (none.trans same.symm)
        rw [leastPath, if_pos none, holds, value_on_first, if_pos rfl,
          holds_congr highCanonical highAbove (later high.leastPath true)]
        exact highIh highCanonical highSome
      · rw [leastPath, if_neg none, holds, value_on_first, if_neg Bool.false_ne_true,
          holds_congr lowCanonical lowAbove (later low.leastPath false)]
        exact lowIh lowCanonical none

theorem holds_iff_path {d : Diagram} {ρ : Valuation} : d.holds ρ = true ↔ ∃ path ∈ d.paths, ∀ test ∈ path, ρ test.1 = test.2 := by
  induction d with
  | leaf value => cases value <;> simp [paths, holds]
  | node var low high lowIh highIh =>
      have branches : ∀ path : Path, path ∈ (node var low high).paths ↔
          (∃ rest ∈ low.paths, (var, false) :: rest = path) ∨ ∃ rest ∈ high.paths, (var, true) :: rest = path := by
        simp [paths]
      simp only [branches, or_and_right, exists_or, exists_exists_and_eq_and, List.forall_mem_cons]
      cases value : ρ var with
      | false => simp [holds, value, lowIh]
      | true => simp [holds, value, highIh]

theorem above_zero (d : Diagram) : d.Above 0 := by
  cases d <;> simp [Above]

theorem paths_nodup {d : Diagram} {bound : Nat} (canonical : d.Canonical) (above : d.Above bound) {path : Path} (listed : path ∈ d.paths) :
    (path.map (·.1)).Nodup ∧ ∀ test ∈ path, bound ≤ test.1 := by
  induction d generalizing bound path with
  | leaf value =>
      cases value with
      | true => simp [List.mem_singleton.mp listed]
      | false => cases listed
  | node var low high lowIh highIh =>
      obtain ⟨_, lowAbove, highAbove, lowCanonical, highCanonical⟩ := canonical
      have le : bound ≤ var := above
      have extended : ∀ (rest : Path) (value : Bool), ((rest.map (·.1)).Nodup ∧ ∀ test ∈ rest, var + 1 ≤ test.1) →
          ((((var, value) :: rest).map (·.1)).Nodup ∧ ∀ test ∈ (var, value) :: rest, bound ≤ test.1) := by
        rintro rest value ⟨nodup, later⟩
        refine ⟨List.nodup_cons.mpr ⟨fun again => ?_, nodup⟩, List.forall_mem_cons.mpr ⟨le, fun test known => ?_⟩⟩
        · obtain ⟨test, known, same⟩ := List.mem_map.mp again
          have less := later test known
          dsimp only at same
          omega
        · have less := later test known
          omega
      rcases List.mem_append.mp listed with lower | higher
      · obtain ⟨rest, known, rfl⟩ := List.mem_map.mp lower
        exact extended rest false (lowIh lowCanonical lowAbove known)
      · obtain ⟨rest, known, rfl⟩ := List.mem_map.mp higher
        exact extended rest true (highIh highCanonical highAbove known)

end Diagram

namespace Region

-- The members of the projection on `vars`, each as a cell, however many there are.
def pickAll (s : Region) (vars : List Nat) : List Region := (s.keep vars).diagram.paths.flatMap (expand vars)

theorem pick_spec {s : Region} (some : s.members.Nonempty) (vars : List Nat) :
    ∃ μ ∈ s.members, s.pick vars = Option.some (cell (vars.map fun v => (v, μ v))) := by
  have notEmpty := not_empty_members.mpr some
  refine ⟨valueOn s.diagram.leastPath, ?_, by rw [pick, notEmpty]; rfl⟩
  apply Diagram.holds_least_path s.canonical
  intro none
  have member := some.some_mem
  rw [mem_members, contains, none] at member
  exact Bool.false_ne_true member

theorem mem_cell_of {vars : List Nat} {μ ρ : Valuation} :
    ρ ∈ (cell (vars.map fun v => (v, μ v))).members ↔ ∀ v ∈ vars, ρ v = μ v := by
  rw [mem_cell]
  simp only [List.forall_mem_map]

theorem reads_cell_of (vars : List Nat) (μ : Valuation) : (cell (vars.map fun v => (v, μ v))).Reads {v | v ∈ vars} := by
  apply Reads.of_mem
  intro ρ σ agree member
  rw [mem_cell_of] at member ⊢
  exact fun v listed => (agree v listed).symm.trans (member v listed)

theorem value_on_of {path : Path} {ρ : Valuation} (passes : ∀ test ∈ path, ρ test.1 = test.2) {v : Nat} (tested : v ∈ path.map (·.1)) :
    valueOn path v = ρ v := by
  cases found : path.lookup v with
  | none =>
      obtain ⟨test, listed, same⟩ := List.mem_map.mp tested
      have different := List.lookup_eq_none_iff.mp found test listed
      simp [same] at different
  | some value =>
      obtain ⟨before, after, whole, _⟩ := List.lookup_eq_some_iff.mp found
      have here := passes (v, value) (by simp [whole])
      simp [valueOn, found, here]

theorem value_on_nodup {path : Path} (nodup : (path.map (·.1)).Nodup) : ∀ test ∈ path, valueOn path test.1 = test.2 := by
  induction path with
  | nil => simp
  | cons first rest ih =>
      obtain ⟨new, others⟩ := List.nodup_cons.mp nodup
      refine List.forall_mem_cons.mpr ⟨Diagram.value_on_first _, fun test listed => ?_⟩
      have different : test.1 ≠ first.1 := fun same => new (List.mem_map.mpr ⟨test, listed, same⟩)
      rw [← ih others test listed]
      exact Diagram.value_on_after _ different

theorem mem_assignments (vars : List Nat) (ρ : Valuation) : (vars.map fun v => (v, ρ v)) ∈ assignments vars := by
  induction vars with
  | nil => exact List.mem_singleton.mpr rfl
  | cons v rest ih =>
      refine List.mem_flatMap.mpr ⟨_, ih, ?_⟩
      cases value : ρ v <;> simp [value]

theorem assignments_vars {vars : List Nat} {values : Path} (listed : values ∈ assignments vars) : values.map (·.1) = vars := by
  induction vars generalizing values with
  | nil => rw [List.mem_singleton.mp listed]; rfl
  | cons v rest ih =>
      obtain ⟨others, known, here⟩ := List.mem_flatMap.mp listed
      rcases List.mem_cons.mp here with rfl | only
      · rw [List.map_cons, ih known]
      · rw [List.mem_singleton.mp only, List.map_cons, ih known]

theorem value_on_expanded {path : Path} (nodup : (path.map (·.1)).Nodup) {vars : List Nat} {values : Path}
    (assigned : values ∈ assignments (vars.filter fun v => (path.lookup v).isNone)) :
    ∀ test ∈ path, valueOn (values.reverse ++ path) test.1 = test.2 := by
  intro test on
  have outside : values.reverse.lookup test.1 = none := by
    rw [List.lookup_eq_none_iff]
    intro value assignedHere
    have free : value.1 ∈ vars.filter fun v => (path.lookup v).isNone :=
      assignments_vars assigned ▸ List.mem_map_of_mem (List.mem_reverse.mp assignedHere)
    have untested := (List.mem_filter.mp free).2
    rw [Option.isNone_iff_eq_none, List.lookup_eq_none_iff] at untested
    rw [bne_comm]
    exact untested test on
  rw [← value_on_nodup nodup test on]
  simp [valueOn, List.lookup_append, outside]

-- Every listed cell is that of a member of the projection, and every member lies in one.
theorem pick_all_spec (s : Region) (vars : List Nat) :
    (∀ c ∈ s.pickAll vars, ∃ μ ∈ (s.keep vars).members, c = cell (vars.map fun v => (v, μ v))) ∧
      ∀ μ ∈ (s.keep vars).members, cell (vars.map fun v => (v, μ v)) ∈ s.pickAll vars := by
  constructor
  · intro c listed
    obtain ⟨path, known, expanded⟩ := List.mem_flatMap.mp listed
    obtain ⟨values, assigned, rfl⟩ := List.mem_map.mp expanded
    refine ⟨valueOn (values.reverse ++ path), Diagram.holds_iff_path.mpr ⟨path, known, fun test on => ?_⟩, rfl⟩
    exact value_on_expanded (Diagram.paths_nodup (s.keep vars).canonical (Diagram.above_zero _) known).1 assigned test on
  · intro μ member
    obtain ⟨path, known, passes⟩ := Diagram.holds_iff_path.mp member
    refine List.mem_flatMap.mpr ⟨path, known, List.mem_map.mpr ⟨_, mem_assignments _ μ, ?_⟩⟩
    dsimp only
    refine congrArg cell (List.map_congr_left fun v listed => ?_)
    rw [@value_on_of _ μ]
    · intro test here
      rcases List.mem_append.mp here with free | on
      · obtain ⟨w, _, rfl⟩ := List.mem_map.mp (List.mem_reverse.mp free)
        rfl
      · exact passes test on
    · by_cases tested : v ∈ path.map (·.1)
      · simp only [List.map_append, List.mem_append]
        exact .inr tested
      · simp only [List.map_append, List.mem_append]
        refine .inl ?_
        rw [List.map_reverse, List.mem_reverse, List.map_map]
        refine List.mem_map.mpr ⟨v, List.mem_filter.mpr ⟨listed, ?_⟩, rfl⟩
        rw [Option.isNone_iff_eq_none, List.lookup_eq_none_iff]
        intro test on
        have different : test.1 ≠ v := fun same => tested (List.mem_map.mpr ⟨test, on, same⟩)
        simpa using different.symm

theorem mem_keep {s : Region} {vars : List Nat} {ρ : Valuation} :
    ρ ∈ (s.keep vars).members ↔ ∃ σ ∈ s.members, ∀ v ∈ vars, σ v = ρ v := by
  rw [mem_members, keep, contains_hide_where]
  simp only [Diagram.AgreeOutside, Bool.not_eq_false', List.contains_iff_mem]
  constructor
  · rintro ⟨σ, agree, member⟩
    exact ⟨σ, member, agree⟩
  · rintro ⟨σ, member, agree⟩
    exact ⟨σ, agree, member⟩

end Region

end Coalition
