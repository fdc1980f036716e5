import Mathlib.Data.Nat.Find
import Mathlib.Order.PiLex
import Mathlib.Order.Bounds.Basic
import Coalition.Proofs.Region.Count
import Coalition.Proofs.Yields

-- A walk that takes the low branch of a reduced diagram whenever it leads somewhere ends in the leaf for true, and finds the member that
-- is least when variables are compared in increasing order, false before true.

set_option autoImplicit false

namespace Coalition

namespace Diagram

-- A walk from the root that takes the high branch only where the low one is false, and may only end in the leaf for true.
inductive Walk : Diagram → Path → Prop where
  | done : Walk (.leaf true) []
  | low {var : Nat} {low high : Diagram} {path : Path} (some : low ≠ .leaf false) (rest : Walk low path) :
      Walk (.node var low high) ((var, false) :: path)
  | high {var : Nat} {high : Diagram} {path : Path} (rest : Walk high path) :
      Walk (.node var (.leaf false) high) ((var, true) :: path)

variable {d : Diagram} {path : Path} {ρ : Valuation}

theorem Walk.path_eq (walk : d.Walk path) : path = d.leastPath := by
  induction walk with
  | done => rfl
  | low some _ ih => rw [leastPath, if_neg some, ih]
  | high _ ih => rw [leastPath, if_pos rfl, ih]

-- In a reduced diagram the walk always goes on: below a false branch, the other one is not false.
theorem walk_least (canonical : d.Canonical) (some : d ≠ .leaf false) : d.Walk d.leastPath := by
  induction d with
  | leaf value =>
      cases value with
      | true => exact .done
      | false => exact absurd rfl some
  | node var low high lowIh highIh =>
      obtain ⟨different, _, _, lowCanonical, highCanonical⟩ := canonical
      by_cases none : low = .leaf false
      · subst none
        rw [leastPath, if_pos rfl]
        exact .high (highIh highCanonical different.symm)
      · rw [leastPath, if_neg none]
        exact .low none (lowIh lowCanonical none)

theorem Walk.mem_paths (walk : d.Walk path) : path ∈ d.paths := by
  induction walk with
  | done => exact List.mem_singleton.mpr rfl
  | low _ _ ih => exact List.mem_append_left _ (List.mem_map_of_mem ih)
  | high _ ih => exact List.mem_append_right _ (List.mem_map_of_mem ih)

theorem least_path_above (canonical : d.Canonical) {bound : Nat} (above : d.Above bound) {i : Nat}
    (on : Region.valueOn d.leastPath i = true) : bound ≤ i := by
  rcases eq_or_ne d (.leaf false) with rfl | some
  · cases on
  · obtain ⟨_, later⟩ := paths_nodup canonical above (walk_least canonical some).mem_paths
    cases found : d.leastPath.lookup i with
    | none => simp [Region.valueOn, found] at on
    | some value =>
        obtain ⟨before, after, whole, _⟩ := List.lookup_eq_some_iff.mp found
        exact later (i, value) (by simp [whole])

-- Where a member first differs from the least path, the member has the true value.
theorem least_path_first (canonical : d.Canonical) {bound : Nat} (above : d.Above bound) (member : d.holds ρ = true) {i : Nat}
    (agree : ∀ j, bound ≤ j → j < i → Region.valueOn d.leastPath j = ρ j) (on : Region.valueOn d.leastPath i = true) : ρ i = true := by
  induction d generalizing bound with
  | leaf value => cases on
  | node var low high lowIh highIh =>
      obtain ⟨_, lowAbove, highAbove, lowCanonical, highCanonical⟩ := id canonical
      have le : bound ≤ var := above
      have reached : var ≤ i := least_path_above canonical (le_refl var) on
      by_cases none : low = .leaf false
      · subst none
        rw [leastPath, if_pos rfl] at agree on
        have taken : ρ var = true := by
          by_contra off
          rw [holds, if_neg off] at member
          cases member
        rcases reached.eq_or_lt with rfl | after
        · exact taken
        · rw [holds, if_pos taken] at member
          refine highIh highCanonical highAbove member (fun j ge less => ?_) ?_
          · rw [← agree j (by omega) less, value_on_after true (by omega)]
          · rwa [value_on_after true (by omega)] at on
      · rw [leastPath, if_neg none] at agree on
        rcases reached.eq_or_lt with rfl | after
        · rw [value_on_first] at on
          cases on
        · have taken := agree var le after
          rw [value_on_first] at taken
          rw [holds, ← taken, if_neg Bool.false_ne_true] at member
          refine lowIh lowCanonical lowAbove member (fun j ge less => ?_) ?_
          · rw [← agree j (by omega) less, value_on_after false (by omega)]
          · rwa [value_on_after false (by omega)] at on

end Diagram

namespace Region

variable {s : Region} {μ : Valuation}

-- A member before which, comparing the variables in increasing order with false before true, there is no other.
def Least (s : Region) (μ : Valuation) : Prop := IsLeast (toLex '' s.members) (toLex μ)

theorem least_member (least : s.Least μ) : μ ∈ s.members := by
  obtain ⟨ν, member, same⟩ := least.1
  exact toLex_inj.mp same ▸ member

theorem least_walk (some : s.members.Nonempty) : s.diagram.Walk s.diagram.leastPath ∧ s.Least (valueOn s.diagram.leastPath) := by
  have notFalse : s.diagram ≠ .leaf false := by
    intro none
    have member := some.some_mem
    rw [mem_members, contains, none] at member
    exact Bool.false_ne_true member
  refine ⟨Diagram.walk_least s.canonical notFalse, ⟨_, Diagram.holds_least_path s.canonical notFalse, rfl⟩, ?_⟩
  rintro _ ⟨ρ, member, rfl⟩
  rcases eq_or_ne (valueOn s.diagram.leastPath) ρ with same | different
  · exact le_of_eq (congrArg toLex same)
  · -- the first variable on which both differ tells which one is less
    have differs := Function.ne_iff.mp different
    obtain ⟨i, apart, agree⟩ : ∃ i, valueOn s.diagram.leastPath i ≠ ρ i ∧ ∀ j < i, valueOn s.diagram.leastPath j = ρ j :=
      ⟨Nat.find differs, Nat.find_spec differs, fun j less => not_not.mp (Nat.find_min differs less)⟩
    refine le_of_lt ⟨i, agree, lt_of_le_of_ne (fun on => ?_) apart⟩
    exact Diagram.least_path_first s.canonical (Diagram.above_zero _) member (fun j _ less => agree j less) on

theorem pick_of_least (some : s.members.Nonempty) (least : s.Least μ) (vars : List Nat) :
    s.pick vars = Option.some (cell (vars.map fun v => (v, μ v))) := by
  obtain rfl : μ = valueOn s.diagram.leastPath := toLex_inj.mp (least.unique (least_walk some).2)
  rw [pick, not_empty_members.mpr some]
  rfl

end Region

namespace Space

variable {space : Space} {s : Region} {vars : List Nat}

theorem pick_known (nonempty : s.members.Nonempty) (known : ∀ v ∈ vars, v < space.size) :
    space.pick s (vars.map Int.ofNat) = .ok (Region.cell (vars.map fun v => (v, Region.valueOn s.diagram.leastPath v))) := by
  unfold pick
  rw [Region.not_empty_members.mpr nonempty, if_neg Bool.false_ne_true]
  dsimp only
  rw [map_m_of_each (g := fun v : Int => (v.toNat, Region.valueOn s.diagram.leastPath v.toNat)), List.map_map]
  · rfl
  · intro index listed
    obtain ⟨v, here, rfl⟩ := List.mem_map.mp listed
    rw [index_known (known v here)]
    rfl

end Space

end Coalition
