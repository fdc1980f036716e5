import Coalition.Proofs.Region.Fixpoint
import Coalition.Proofs.Region.Pick
import Coalition.Region.Space

-- Counting and listing the members of a region over the variables it reads.

set_option autoImplicit false

namespace Coalition

namespace Diagram

def models (d : Diagram) (vars : Finset Nat) : Finset (Finset Nat) :=
  vars.powerset.filter fun on => d.holds (fun v => decide (v ∈ on)) = true

-- A canonical diagram tests only variables that it reads, and its branches read the others.
theorem reads_branches {var : Nat} {low high : Diagram} (canonical : (node var low high).Canonical) {vars : Finset Nat}
    (reads : DependsOn (node var low high).holds (vars : Set Nat)) :
    var ∈ vars ∧ DependsOn low.holds (vars.erase var : Finset Nat) ∧ DependsOn high.holds (vars.erase var : Finset Nat) := by
  have branch : ∀ value, DependsOn (fun ρ : Valuation => (node var low high).holds (ρ.set var value)) (vars.erase var : Finset Nat) := by
    intro value ρ σ agree
    refine reads fun v read => ?_
    by_cases same : v = var
    · rw [Valuation.set, Valuation.set, if_pos same, if_pos same]
    · rw [Valuation.set, Valuation.set, if_neg same, if_neg same]
      exact agree v (Finset.mem_coe.mpr (Finset.mem_erase.mpr ⟨same, read⟩))
  refine ⟨?_, ?_, ?_⟩
  · -- the branches differ, so that the variable is one of those read
    by_contra absent
    refine canonical.1 (eq_of_holds low high canonical.2.2.2.1 canonical.2.2.2.2 fun ρ => ?_)
    rw [← holds_low canonical, ← holds_high canonical]
    refine reads fun v read => ?_
    have other : v ≠ var := fun same => absent (same ▸ read)
    rw [Valuation.set, Valuation.set, if_neg other, if_neg other]
  · rw [show low.holds = _ from funext fun ρ => (holds_low canonical ρ).symm]
    exact branch false
  · rw [show high.holds = _ from funext fun ρ => (holds_high canonical ρ).symm]
    exact branch true

theorem models_node {var : Nat} {low high : Diagram} (canonical : (node var low high).Canonical) {vars : Finset Nat} (fresh : var ∉ vars) :
    ((node var low high).models (insert var vars)).card = (low.models vars).card + (high.models vars).card := by
  have off : vars.powerset.filter (fun on => (node var low high).holds (fun v => decide (v ∈ on)) = true) = low.models vars := by
    refine Finset.filter_congr fun on within => ?_
    have absent : var ∉ on := fun listed => fresh (Finset.mem_powerset.mp within listed)
    simp [holds, absent]
  have on : (vars.powerset.image (insert var)).filter (fun on => (node var low high).holds (fun v => decide (v ∈ on)) = true) =
      (high.models vars).image (insert var) := by
    rw [Finset.filter_image]
    refine congrArg _ (Finset.filter_congr fun on _ => ?_)
    have same : high.holds (fun v => decide (v ∈ insert var on)) = high.holds fun v => decide (v ∈ on) := by
      refine holds_congr canonical.2.2.2.2 canonical.2.2.1 fun v later => ?_
      have other : v ≠ var := by omega
      simp [other]
    simp [holds, ← same]
  have apart : ∀ part : Finset (Finset Nat), part ⊆ vars.powerset → ∀ set ∈ part, var ∉ set :=
    fun part within set listed member => fresh (Finset.mem_powerset.mp (within listed) member)
  unfold models at *
  rw [Finset.powerset_insert, Finset.filter_union, off, on, Finset.card_union_of_disjoint, Finset.card_image_of_injOn]
  · intro a first b second same
    have restored := congrArg (Finset.erase · var) same
    simp only [Finset.erase_insert (apart _ (Finset.filter_subset _ _) a first), Finset.erase_insert (apart _ (Finset.filter_subset _ _) b second)] at restored
    exact restored
  · refine Finset.disjoint_left.mpr fun a first second => ?_
    obtain ⟨b, _, rfl⟩ := Finset.mem_image.mp second
    exact apart _ (Finset.filter_subset _ _) _ first (Finset.mem_insert_self var b)

-- A diagram weighs what its members weigh, each of them as much as the variables that are not read leave open.
theorem weigh_models {d : Diagram} {size : Nat} (canonical : d.Canonical) {vars : Finset Nat} (reads : DependsOn d.holds (vars : Set Nat))
    (fits : vars.card ≤ size) : d.weigh (2 ^ size) = 2 ^ (size - vars.card) * (d.models vars).card := by
  induction d generalizing vars with
  | leaf value =>
      cases value with
      | true =>
          have all : (leaf true).models vars = vars.powerset := Finset.filter_true_of_mem fun _ _ => rfl
          rw [all, Finset.card_powerset, ← pow_add, Nat.sub_add_cancel fits]
          rfl
      | false =>
          have none : (leaf false).models vars = ∅ := Finset.filter_false_of_mem fun _ _ => Bool.false_ne_true
          rw [none]
          rfl
  | node var low high lowIh highIh =>
      obtain ⟨tested, lowReads, highReads⟩ := reads_branches canonical reads
      have fewer := Finset.card_erase_add_one tested
      have parts := models_node canonical (Finset.notMem_erase var vars)
      rw [Finset.insert_erase tested] at parts
      have double : 2 ^ (size - (vars.erase var).card) = 2 * 2 ^ (size - vars.card) := by
        rw [← pow_succ']
        congr 1
        omega
      rw [weigh, lowIh canonical.2.2.2.1 lowReads (by omega), highIh canonical.2.2.2.2 highReads (by omega), double, parts,
        Nat.mul_assoc, Nat.mul_assoc, ← Nat.mul_add, ← Nat.mul_add, Nat.mul_div_cancel_left _ Nat.two_pos]

theorem paths_read {d : Diagram} (canonical : d.Canonical) {vars : Finset Nat} (reads : DependsOn d.holds (vars : Set Nat)) {path : Path}
    (listed : path ∈ d.paths) : ∀ test ∈ path, test.1 ∈ vars := by
  induction d generalizing vars path with
  | leaf value =>
      cases value with
      | true => simp [List.mem_singleton.mp listed]
      | false => cases listed
  | node var low high lowIh highIh =>
      obtain ⟨tested, lowReads, highReads⟩ := reads_branches canonical reads
      obtain here | here := List.mem_append.mp listed <;> obtain ⟨rest, later, rfl⟩ := List.mem_map.mp here
      · exact List.forall_mem_cons.mpr ⟨tested, fun test on => Finset.mem_of_mem_erase (lowIh canonical.2.2.2.1 lowReads later test on)⟩
      · exact List.forall_mem_cons.mpr ⟨tested, fun test on => Finset.mem_of_mem_erase (highIh canonical.2.2.2.2 highReads later test on)⟩

theorem paths_apart (d : Diagram) : d.paths.Pairwise fun p q => ∀ ρ : Valuation, ¬((∀ test ∈ p, ρ test.1 = test.2) ∧ ∀ test ∈ q, ρ test.1 = test.2) := by
  induction d with
  | leaf value => cases value <;> simp [paths]
  | node var low high lowIh highIh =>
      unfold paths
      rw [List.pairwise_append, List.pairwise_map, List.pairwise_map]
      refine ⟨lowIh.imp fun apart ρ passes => ?_, highIh.imp fun apart ρ passes => ?_, fun p first q second ρ passes => ?_⟩
      · exact apart ρ ⟨(List.forall_mem_cons.mp passes.1).2, (List.forall_mem_cons.mp passes.2).2⟩
      · exact apart ρ ⟨(List.forall_mem_cons.mp passes.1).2, (List.forall_mem_cons.mp passes.2).2⟩
      · obtain ⟨p, _, rfl⟩ := List.mem_map.mp first
        obtain ⟨q, _, rfl⟩ := List.mem_map.mp second
        have off := (List.forall_mem_cons.mp passes.1).1
        have on := (List.forall_mem_cons.mp passes.2).1
        exact Bool.false_ne_true (off.symm.trans on)

end Diagram

namespace Region

theorem cell_of_inj {vars : List Nat} {μ ν : Valuation} (same : cell (vars.map fun v => (v, μ v)) = cell (vars.map fun v => (v, ν v))) :
    ∀ v ∈ vars, μ v = ν v := by
  have here : μ ∈ (cell (vars.map fun v => (v, μ v))).members := mem_cell_of.mpr fun _ _ => rfl
  rw [same] at here
  exact mem_cell_of.mp here

theorem assignments_nodup (vars : List Nat) : (assignments vars).Nodup := by
  induction vars with
  | nil => exact List.nodup_singleton _
  | cons v rest ih =>
      refine List.nodup_flatMap.mpr ⟨fun values _ => by simp, ih.imp fun different => ?_⟩
      intro path first second
      have tails : ∀ {values : Path}, path ∈ [(v, false) :: values, (v, true) :: values] → path.tail = values := by
        intro values listed
        obtain rfl | rfl : path = (v, false) :: values ∨ path = (v, true) :: values := by simpa using listed
        all_goals rfl
      exact different ((tails first).symm.trans (tails second))

theorem value_on_open {values : Path} (nodup : (values.map (·.1)).Nodup) (path : Path) :
    (values.map (·.1)).map (fun v => (v, valueOn (values.reverse ++ path) v)) = values := by
  rw [List.map_map]
  refine (List.map_congr_left fun test listed => ?_).trans (List.map_id _)
  have reversed : (values.reverse.map (·.1)).Nodup := by
    rw [List.map_reverse]
    exact List.nodup_reverse.mpr nodup
  have here := List.mem_reverse.mpr listed
  have value := value_on_nodup reversed test here
  cases found : values.reverse.lookup test.1 with
  | none =>
      have different := List.lookup_eq_none_iff.mp found test here
      simp at different
  | some first =>
      have same : first = test.2 := by simpa [valueOn, found] using value
      simp [valueOn, List.lookup_append, found, same]

theorem reads_keep (s : Region) (vars : List Nat) : (s.keep vars).Reads {v | v ∈ vars} := by
  refine Reads.of_mem fun ρ σ agree member => ?_
  rw [mem_keep] at member ⊢
  obtain ⟨μ, inside, same⟩ := member
  exact ⟨μ, inside, fun v listed => (same v listed).trans (agree v listed)⟩

theorem reads_keep_set (s : Region) (vars : List Nat) : (s.keep vars).Reads (vars.toFinset : Set Nat) :=
  (reads_keep s vars).mono fun v listed => by simpa using listed

theorem pick_all_nodup (s : Region) {vars : List Nat} (distinct : vars.Nodup) : (s.pickAll vars).Nodup := by
  have reads : DependsOn (s.keep vars).diagram.holds (vars.toFinset : Set Nat) := reads_keep_set s vars
  rw [pickAll, List.nodup_flatMap]
  constructor
  · intro path known
    have free := distinct.filter fun v => (path.lookup v).isNone
    refine (assignments_nodup _).map_on fun values first others second same => ?_
    have keys := assignments_vars first
    have keysToo := assignments_vars second
    refine ((value_on_open (keys ▸ free) path).symm.trans ?_).trans (value_on_open (keysToo ▸ free) path)
    rw [keys, keysToo]
    refine List.map_congr_left fun v left => ?_
    rw [cell_of_inj same v (List.mem_filter.mp left).1]
  · refine (Diagram.paths_apart _).imp_of_mem fun {p q} first second apart c inFirst inSecond => ?_
    obtain ⟨values, assigned, rfl⟩ := List.mem_map.mp inFirst
    obtain ⟨others, assignedToo, same⟩ := List.mem_map.mp inSecond
    have passes := value_on_expanded (Diagram.paths_nodup (s.keep vars).canonical (Diagram.above_zero _) first).1 assigned
    have passesToo := value_on_expanded (Diagram.paths_nodup (s.keep vars).canonical (Diagram.above_zero _) second).1 assignedToo
    refine apart _ ⟨passes, fun test on => ?_⟩
    have read := Diagram.paths_read (s.keep vars).canonical reads second test on
    rw [← cell_of_inj same test.1 (List.mem_toFinset.mp read), passesToo test on]

theorem length_pick_all (s : Region) {vars : List Nat} (distinct : vars.Nodup) :
    (s.pickAll vars).length = (s.keep vars).weight vars.toFinset := by
  classical
  let cellOf (on : Finset Nat) : Region := cell (vars.map fun v => (v, decide (v ∈ on)))
  have within : ∀ on ∈ (s.keep vars).cells vars.toFinset, on ⊆ vars.toFinset := fun on held =>
    Finset.mem_powerset.mp (Finset.mem_filter.mp held).1
  have same : (s.pickAll vars).toFinset = ((s.keep vars).cells vars.toFinset).image cellOf := by
    obtain ⟨sound, complete⟩ := pick_all_spec s vars
    ext c
    rw [List.mem_toFinset, Finset.mem_image]
    constructor
    · intro listed
      obtain ⟨μ, member, rfl⟩ := sound c listed
      let on : Finset Nat := vars.toFinset.filter fun v => μ v = true
      have bits : ∀ v ∈ vars, decide (v ∈ on) = μ v := fun v here => by simp [on, here]
      refine ⟨on, Finset.mem_filter.mpr ⟨Finset.mem_powerset.mpr (Finset.filter_subset _ _), ?_⟩, ?_⟩
      · exact (reads_keep s vars).mem member fun v here => (bits v here).symm
      · exact congrArg cell (List.map_congr_left fun v here => by rw [bits v here])
    · rintro ⟨on, held, rfl⟩
      exact complete _ (Finset.mem_filter.mp held).2
  rw [weight, ← List.toFinset_card_of_nodup (pick_all_nodup s distinct), same, Finset.card_image_of_injOn]
  intro a first b second equal
  have bits := cell_of_inj (μ := fun v => decide (v ∈ a)) (ν := fun v => decide (v ∈ b)) equal
  ext v
  constructor
  · intro member
    have here := bits v (List.mem_toFinset.mp (within a first member))
    simpa [member] using here
  · intro member
    have here := bits v (List.mem_toFinset.mp (within b second member))
    simpa [member] using here

end Region

theorem Space.index_known {space : Space} {v : Nat} (known : v < space.size) : space.index? (Int.ofNat v) = some v :=
  if_pos ⟨Int.natCast_nonneg v, known⟩

theorem Space.count_weight {space : Space} {vars : List Nat} (s : Region) (distinct : vars.Nodup) (known : ∀ v ∈ vars, v < space.size) :
    space.count s vars = (s.keep vars).weight vars.toFinset := by
  have card : vars.toFinset.card = vars.length := List.toFinset_card_of_nodup distinct
  have within : vars.toFinset ⊆ Finset.range space.size := fun v listed => Finset.mem_range.mpr (known v (List.mem_toFinset.mp listed))
  have fits := Finset.card_le_card within
  rw [Finset.card_range] at fits
  have shared : (s.keep vars).diagram.count space.size = (s.keep vars).diagram.weigh (2 ^ space.size) :=
    (@Diagram.weighShared (Nat.pow 2 space.size) (s.keep vars).diagram .empty).1.2
  rw [count, shared, Nat.shiftRight_eq_div_pow, Diagram.weigh_models (s.keep vars).canonical (Region.reads_keep_set s vars) fits, card,
    Nat.mul_div_cancel_left _ (Nat.two_pow_pos _)]
  rfl

end Coalition
