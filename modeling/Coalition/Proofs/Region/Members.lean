import Mathlib.Data.Set.Lattice
import Mathlib.Logic.Function.DependsOn
import Coalition.Region

-- Regions as sets of valuations, and the variables on which membership depends.

set_option autoImplicit false

namespace Coalition.Region

def members (s : Region) : Set Valuation := {ρ | s.contains ρ = true}

theorem mem_members {s : Region} {ρ : Valuation} : ρ ∈ s.members ↔ s.contains ρ = true := Iff.rfl

theorem members_injective {s t : Region} (same : s.members = t.members) : s = t := by
  apply eq_of_contains
  intro ρ
  have iff : s.contains ρ = true ↔ t.contains ρ = true := Set.ext_iff.mp same ρ
  exact Bool.eq_iff_iff.mpr iff

@[simp] theorem members_empty : empty.members = ∅ := by
  ext ρ
  simp [mem_members]

@[simp] theorem members_univ : univ.members = Set.univ := by
  ext ρ
  simp [mem_members]

@[simp] theorem members_inter (s t : Region) : (s.inter t).members = s.members ∩ t.members := by
  ext ρ
  simp [mem_members]

@[simp] theorem members_union (s t : Region) : (s.union t).members = s.members ∪ t.members := by
  ext ρ
  simp [mem_members]

@[simp] theorem members_diff (s t : Region) : (s.diff t).members = s.members \ t.members := by
  ext ρ
  simp [mem_members]

theorem subset_diff_union {r s t : Region} (covered : r.members ⊆ s.members ∪ t.members) : r.members ⊆ (s.diff t).members ∪ t.members := by
  rw [members_diff, Set.sdiff_union_self]
  exact covered

theorem diff_ne_of_mem {s t u : Region} {ρ : Valuation} (here : ρ ∈ t.members) (before : ρ ∈ u.members) : s.diff t ≠ u := by
  rintro rfl
  rw [members_diff] at before
  exact before.2 here

theorem mem_iff {s t : Region} {ρ : Valuation} : ρ ∈ (s.iff t).members ↔ (ρ ∈ s.members ↔ ρ ∈ t.members) := by
  simp only [mem_members, contains_iff]
  cases s.contains ρ <;> cases t.contains ρ <;> simp

theorem mem_implies {s t : Region} {ρ : Valuation} : ρ ∈ (s.implies t).members ↔ (ρ ∈ s.members → ρ ∈ t.members) := by
  simp only [mem_members, contains_implies]
  cases s.contains ρ <;> simp

theorem mem_compl {s : Region} {ρ : Valuation} : ρ ∈ s.compl.members ↔ ρ ∉ s.members := by
  simp [mem_members]

theorem inter_subset_left (s t : Region) : (s.inter t).members ⊆ s.members := by
  rw [members_inter]
  exact Set.inter_subset_left

theorem inter_subset_right (s t : Region) : (s.inter t).members ⊆ t.members := by
  rw [members_inter]
  exact Set.inter_subset_right

theorem mem_hide {s : Region} {vars : List Nat} {ρ : Valuation} :
    ρ ∈ (s.hide vars).members ↔ ∃ σ ∈ s.members, ∀ v, v ∉ vars → σ v = ρ v := by
  rw [mem_members, contains_hide]
  constructor
  · rintro ⟨σ, agree, member⟩
    exact ⟨σ, member, agree⟩
  · rintro ⟨σ, member, agree⟩
    exact ⟨σ, agree, member⟩

theorem members_subset {s t : Region} : s.subset t = true ↔ s.members ⊆ t.members := subset_iff s t

theorem is_empty_members {s : Region} : s.isEmpty = true ↔ s.members = ∅ := by
  rw [is_empty_iff, Set.eq_empty_iff_forall_notMem]
  simp [mem_members]

theorem not_empty_members {s : Region} : s.isEmpty = false ↔ s.members.Nonempty := by
  rw [← Bool.not_eq_true, is_empty_members, Set.nonempty_iff_ne_empty]

theorem meets_members {s t : Region} : s.meets t = true ↔ (s.members ∩ t.members).Nonempty := meets_iff s t

theorem hide_subset (s : Region) (vars : List Nat) : s.members ⊆ (s.hide vars).members :=
  fun ρ member => mem_hide.mpr ⟨ρ, member, fun _ _ => rfl⟩

theorem hide_mono {s t : Region} (vars : List Nat) (le : s.members ⊆ t.members) :
    (s.hide vars).members ⊆ (t.hide vars).members := by
  intro ρ member
  obtain ⟨σ, inside, agree⟩ := mem_hide.mp member
  exact mem_hide.mpr ⟨σ, le inside, agree⟩

theorem hide_append (r : Region) (bits more : List Nat) : r.hide (bits ++ more) = (r.hide bits).hide more := by
  refine members_injective (Set.ext fun ρ => ?_)
  simp only [mem_hide, List.mem_append, not_or]
  constructor
  · rintro ⟨σ, inside, agree⟩
    refine ⟨fun b => if b ∈ more then σ b else ρ b, ⟨σ, inside, fun b out => ?_⟩, fun b out => if_neg out⟩
    by_cases other : b ∈ more
    · exact (if_pos other).symm
    · exact (agree b ⟨out, other⟩).trans (if_neg other).symm
  · rintro ⟨σ, ⟨τ, inside, agree⟩, agreeToo⟩
    exact ⟨τ, inside, fun b out => (agree b out.1).trans (agreeToo b out.2)⟩

theorem mem_fold_inter {start : Region} {regions : List Region} {ρ : Valuation} :
    ρ ∈ (regions.foldl inter start).members ↔ ρ ∈ start.members ∧ ∀ r ∈ regions, ρ ∈ r.members := by
  induction regions generalizing start with
  | nil => simp
  | cons r rest ih => simp only [List.foldl_cons, ih, members_inter, Set.mem_inter_iff, List.forall_mem_cons, and_assoc]

theorem mem_fold_union {start : Region} {regions : List Region} {ρ : Valuation} :
    ρ ∈ (regions.foldl union start).members ↔ ρ ∈ start.members ∨ ∃ r ∈ regions, ρ ∈ r.members := by
  induction regions generalizing start with
  | nil => simp
  | cons r rest ih => simp only [List.foldl_cons, ih, members_union, Set.mem_union, List.mem_cons, exists_eq_or_imp, or_assoc]

theorem mem_inter_all {regions : List Region} {ρ : Valuation} :
    ρ ∈ (interAll regions).members ↔ ∀ r ∈ regions, ρ ∈ r.members := by
  simp [interAll, mem_fold_inter]

theorem mem_union_all {regions : List Region} {ρ : Valuation} :
    ρ ∈ (unionAll regions).members ↔ ∃ r ∈ regions, ρ ∈ r.members := by
  simp only [unionAll, mem_fold_union, members_empty, Set.mem_empty_iff_false, false_or]

theorem mem_test {var : Nat} {value : Bool} {ρ : Valuation} : ρ ∈ (test var value).members ↔ ρ var = value := by
  rw [mem_members, contains_test, beq_iff_eq]

theorem mem_cell {values : List (Nat × Bool)} {ρ : Valuation} :
    ρ ∈ (cell values).members ↔ ∀ entry ∈ values, ρ entry.1 = entry.2 := by
  have folded : ∀ start : Region, ρ ∈ (values.foldl (fun s entry => s.inter (test entry.1 entry.2)) start).members ↔
      ρ ∈ start.members ∧ ∀ entry ∈ values, ρ entry.1 = entry.2 := by
    intro start
    induction values generalizing start with
    | nil => simp
    | cons entry rest ih => simp only [List.foldl_cons, ih, members_inter, Set.mem_inter_iff, mem_test, List.forall_mem_cons, and_assoc]
  exact (folded univ).trans (by simp)

-- Membership depends on the variables of `vars` only.
def Reads (s : Region) (vars : Set Nat) : Prop := DependsOn s.contains vars

section

variable {s t : Region} {vars more : Set Nat}

theorem Reads.congr (reads : s.Reads vars) {ρ σ : Valuation} (agree : ∀ v ∈ vars, ρ v = σ v) :
    ρ ∈ s.members ↔ σ ∈ s.members := by
  rw [mem_members, mem_members, reads agree]

theorem Reads.mem (reads : s.Reads vars) {ρ σ : Valuation} (member : ρ ∈ s.members)
    (agree : ∀ v ∈ vars, ρ v = σ v) : σ ∈ s.members := (reads.congr agree).mp member

theorem Reads.of_mem (closed : ∀ ρ σ : Valuation, (∀ v ∈ vars, ρ v = σ v) → ρ ∈ s.members → σ ∈ s.members) :
    s.Reads vars := by
  intro ρ σ agree
  exact Bool.eq_iff_iff.mpr ⟨closed ρ σ agree, closed σ ρ fun v member => (agree v member).symm⟩

theorem Reads.mono (reads : s.Reads vars) (le : vars ⊆ more) : s.Reads more :=
  fun _ _ agree => reads fun v member => agree v (le member)

theorem reads_pointwise (op : Bool → Bool → Bool) (left : s.Reads vars) (right : t.Reads vars) :
    (pointwise op s t).Reads vars := by
  intro ρ σ agree
  rw [contains_pointwise, contains_pointwise, left agree, right agree]

theorem Reads.inter (left : s.Reads vars) (right : t.Reads vars) : (s.inter t).Reads vars :=
  reads_pointwise _ left right

theorem Reads.union (left : s.Reads vars) (right : t.Reads vars) : (s.union t).Reads vars :=
  reads_pointwise _ left right

theorem Reads.diff (left : s.Reads vars) (right : t.Reads vars) : (s.diff t).Reads vars :=
  reads_pointwise _ left right

theorem Reads.implies (left : s.Reads vars) (right : t.Reads vars) : (s.implies t).Reads vars :=
  reads_pointwise _ left right

theorem Reads.iff (left : s.Reads vars) (right : t.Reads vars) : (s.iff t).Reads vars :=
  reads_pointwise _ left right

theorem reads_empty (vars : Set Nat) : empty.Reads vars := fun _ _ _ => rfl

theorem reads_univ (vars : Set Nat) : univ.Reads vars := fun _ _ _ => rfl

theorem Reads.compl (reads : s.Reads vars) : s.compl.Reads vars := reads_pointwise _ reads (reads_univ vars)

theorem Reads.hide (reads : s.Reads vars) (hidden : List Nat) :
    (s.hide hidden).Reads (vars \ {v | v ∈ hidden}) := by
  apply Reads.of_mem
  intro ρ σ agree member
  obtain ⟨τ, inside, same⟩ := mem_hide.mp member
  refine mem_hide.mpr ⟨fun v => if v ∈ hidden then τ v else σ v, ?_, fun v shown => by simp [shown]⟩
  apply reads.mem inside
  intro v read
  by_cases hide : v ∈ hidden
  · simp [hide]
  · simp only [hide, if_false, same v hide, agree v ⟨read, hide⟩]

theorem Reads.hide_within (reads : s.Reads vars) (hidden : List Nat) : (s.hide hidden).Reads vars :=
  (reads.hide hidden).mono Set.sdiff_subset

theorem reads_fold_inter {regions : List Region} (start : s.Reads vars) (reads : ∀ r ∈ regions, r.Reads vars) :
    (regions.foldl Region.inter s).Reads vars := by
  induction regions generalizing s with
  | nil => exact start
  | cons r rest ih =>
      exact ih (start.inter (reads r List.mem_cons_self)) fun r member => reads r (List.mem_cons_of_mem _ member)

theorem reads_fold_union {regions : List Region} (start : s.Reads vars) (reads : ∀ r ∈ regions, r.Reads vars) :
    (regions.foldl Region.union s).Reads vars := by
  induction regions generalizing s with
  | nil => exact start
  | cons r rest ih =>
      exact ih (start.union (reads r List.mem_cons_self)) fun r member => reads r (List.mem_cons_of_mem _ member)

theorem reads_inter_all {regions : List Region} (reads : ∀ r ∈ regions, r.Reads vars) : (interAll regions).Reads vars :=
  reads_fold_inter (reads_univ vars) reads

theorem reads_union_all {regions : List Region} (reads : ∀ r ∈ regions, r.Reads vars) : (unionAll regions).Reads vars :=
  reads_fold_union (reads_empty vars) reads

theorem reads_cell {values : List (Nat × Bool)} (within : ∀ entry ∈ values, entry.1 ∈ vars) : (cell values).Reads vars := by
  apply Reads.of_mem
  intro ρ σ agree member
  rw [mem_cell] at member ⊢
  intro entry listed
  rw [← agree entry.1 (within entry listed), member entry listed]

end

end Coalition.Region
