import Mathlib.Data.Finset.Powerset
import Mathlib.Order.FixedPoints
import Mathlib.Order.CompletePartialOrder
import Coalition.Proofs.Region.Members
import Coalition.Region.Fixpoint

-- A region that reads finitely many variables holds finitely many cells of them, and a chain of regions gains or loses a cell at every
-- proper step.

set_option autoImplicit false

namespace Coalition.Region

def cells (vars : Finset Nat) (s : Region) : Finset (Finset Nat) :=
  vars.powerset.filter fun on => s.contains (fun v => decide (v ∈ on)) = true

def weight (vars : Finset Nat) (s : Region) : Nat := (s.cells vars).card

section

variable {vars : Finset Nat} {s t : Region}

theorem weight_bound (vars : Finset Nat) (s : Region) : s.weight vars ≤ 2 ^ vars.card := by
  rw [← Finset.card_powerset]
  exact Finset.card_filter_le _ _

theorem weight_strict (reads : t.Reads vars) (le : s.members ⊆ t.members) (different : s ≠ t)
    (sReads : s.Reads vars) : s.weight vars < t.weight vars := by
  have more : ∃ ρ ∈ t.members, ρ ∉ s.members := by
    by_contra none
    push Not at none
    exact different (members_injective (Set.Subset.antisymm le none))
  obtain ⟨ρ, inside, outside⟩ := more
  let on : Finset Nat := vars.filter fun v => ρ v = true
  have agree : ∀ v ∈ (vars : Set Nat), ρ v = decide (v ∈ on) := by
    intro v member
    have listed : v ∈ vars := member
    simp [on, listed]
  apply Finset.card_lt_card
  refine ⟨fun a member => ?_, fun back => ?_⟩
  · rw [cells, Finset.mem_filter] at member ⊢
    exact ⟨member.1, le member.2⟩
  · have present : on ∈ t.cells vars :=
      Finset.mem_filter.mpr ⟨Finset.mem_powerset.mpr (Finset.filter_subset _ _), reads.mem inside agree⟩
    have absent := (Finset.mem_filter.mp (back present)).2
    exact outside ((sReads.congr agree).mpr absent)

end

-- A function on the regions of some kind, which keeps the kind and inclusion.
structure Steady (vars : Finset Nat) (K : Region → Prop) (f : Region → Counted Region) : Prop where
  reads : ∀ r, K r → r.Reads vars
  keeps : ∀ r, K r → K (f r).value
  mono : ∀ r s, K r → K s → r.members ⊆ s.members → (f r).value.members ⊆ (f s).value.members

section

variable {vars : Finset Nat} {K : Region → Prop} {f : Region → Counted Region}

theorem iterate_induct {P : Region → Prop} (keeps : ∀ r, K r → K (f r).value)
    (step : ∀ r, K r → P r → P (f r).value) (fuel : Nat) (x : Region) (known : K x)
    (holds : P x) : K (iterate f fuel x).value ∧ P (iterate f fuel x).value := by
  induction fuel generalizing x with
  | zero => exact ⟨known, holds⟩
  | succ fuel ih =>
      by_cases fixed : (f x).value = x
      · simpa only [iterate, if_pos fixed] using And.intro known holds
      · simpa only [iterate, if_neg fixed] using ih (f x).value (keeps x known) (step x known holds)

theorem iterate_ascends (steady : Steady vars K f) (fuel : Nat) (x : Region) (known : K x)
    (grows : x.members ⊆ (f x).value.members) (enough : 2 ^ vars.card < fuel + x.weight vars) :
    (f (iterate f fuel x).value).value = (iterate f fuel x).value := by
  induction fuel generalizing x with
  | zero =>
      have bound := weight_bound vars x
      omega
  | succ fuel ih =>
      by_cases fixed : (f x).value = x
      · simpa only [iterate, if_pos fixed] using fixed
      · have next := steady.keeps x known
        have more := weight_strict (steady.reads _ next) grows (Ne.symm fixed) (steady.reads x known)
        simpa only [iterate, if_neg fixed] using
          ih (f x).value next (steady.mono x _ known next grows) (by omega)

theorem iterate_descends (steady : Steady vars K f) (fuel : Nat) (x : Region) (known : K x)
    (shrinks : (f x).value.members ⊆ x.members) (enough : x.weight vars < fuel) :
    (f (iterate f fuel x).value).value = (iterate f fuel x).value := by
  induction fuel generalizing x with
  | zero => omega
  | succ fuel ih =>
      by_cases fixed : (f x).value = x
      · simpa only [iterate, if_pos fixed] using fixed
      · have next := steady.keeps x known
        have less := weight_strict (steady.reads x known) shrinks fixed (steady.reads _ next)
        simpa only [iterate, if_neg fixed] using
          ih (f x).value next (steady.mono _ x next known shrinks) (by omega)

variable {n : Nat} {start : Region}

theorem fixpoint_ascends (steady : Steady (Finset.range n) K f) (known : K start)
    (grows : start.members ⊆ (f start).value.members) :
    (f (fixpoint n start f).value).value = (fixpoint n start f).value := by
  apply iterate_ascends steady _ _ known grows
  simp only [Finset.card_range, Nat.pow_eq]
  omega

theorem fixpoint_descends (steady : Steady (Finset.range n) K f) (known : K start)
    (shrinks : (f start).value.members ⊆ start.members) :
    (f (fixpoint n start f).value).value = (fixpoint n start f).value := by
  apply iterate_descends steady _ _ known shrinks
  have bound := weight_bound (Finset.range n) start
  simp only [Finset.card_range] at bound
  simp only [Nat.pow_eq]
  omega

theorem fixpoint_induct {P : Region → Prop} (keeps : ∀ r, K r → K (f r).value)
    (step : ∀ r, K r → P r → P (f r).value) (known : K start) (holds : P start) :
    K (fixpoint n start f).value ∧ P (fixpoint n start f).value :=
  iterate_induct keeps step _ start known holds

variable {g : Region → Counted Region}

theorem least_mono (keeps : ∀ r, K r → K (f r).value) (steady : Steady (Finset.range n) K g) (known : K .empty)
    (le : ∀ r, K r → (f r).value.members ⊆ (g r).value.members) :
    (fixpoint n .empty f).value.members ⊆ (fixpoint n .empty g).value.members := by
  have kind := (fixpoint_induct (n := n) (P := fun _ => True) steady.keeps (fun _ _ _ => trivial) known trivial).1
  have fixed := fixpoint_ascends steady known (by simp)
  refine (fixpoint_induct (n := n) (P := fun r => r.members ⊆ (fixpoint n .empty g).value.members) keeps
    (fun r kindR below => ?_) known (by simp)).2
  rw [← fixed]
  exact (le r kindR).trans (steady.mono r _ kindR kind below)

theorem greatest_mono (steady : Steady (Finset.range n) K f) (other : Steady (Finset.range n) K g) (known : K start)
    (below : ∀ r, K r → (f r).value.members ⊆ start.members)
    (le : ∀ r, K r → (f r).value.members ⊆ (g r).value.members) :
    (fixpoint n start f).value.members ⊆ (fixpoint n start g).value.members := by
  have kind := (fixpoint_induct (n := n) (P := fun _ => True) steady.keeps (fun _ _ _ => trivial) known trivial).1
  have fixed := fixpoint_descends steady known (below start known)
  refine (fixpoint_induct (n := n) (P := fun r => (fixpoint n start f).value.members ⊆ r.members) other.keeps
    (fun r kindR above => ?_) known ?_).2
  · rw [← fixed]
    exact (le _ kind).trans (other.mono _ r kind kindR above)
  · rw [← fixed]
    exact below _ kind

variable {α : Type} {view : Region → Set α} {F : Set α →o Set α}

-- Iteration from nothing computes the least fixpoint of what the steps do to a view of the regions.
theorem view_least (steady : Steady (Finset.range n) K f) (known : K .empty)
    (viewEmpty : view .empty = ∅) (viewStep : ∀ r, K r → view (f r).value = F (view r)) :
    K (fixpoint n .empty f).value ∧ view (fixpoint n .empty f).value = OrderHom.lfp F := by
  have below := fixpoint_induct (n := n) (P := fun r => view r ⊆ OrderHom.lfp F) steady.keeps
    (fun r kindR le => by rw [viewStep r kindR, ← F.map_lfp]; exact F.mono le) known (by simp [viewEmpty])
  have fixed := fixpoint_ascends steady known (by simp)
  refine ⟨below.1, Set.Subset.antisymm below.2 (F.lfp_le ?_)⟩
  rw [← viewStep _ below.1, fixed]

-- Iteration downwards from a region above all values computes the greatest fixpoint.
theorem view_greatest (steady : Steady (Finset.range n) K f) (known : K start)
    (below : ∀ r, K r → (f r).value.members ⊆ start.members) (viewStart : ∀ X, F X ⊆ view start)
    (viewStep : ∀ r, K r → view (f r).value = F (view r)) :
    K (fixpoint n start f).value ∧ view (fixpoint n start f).value = OrderHom.gfp F := by
  have above := fixpoint_induct (n := n) (P := fun r => OrderHom.gfp F ⊆ view r) steady.keeps
    (fun r kindR le => by rw [viewStep r kindR, ← F.map_gfp]; exact F.mono le) known
    (by rw [← F.map_gfp]; exact viewStart _)
  have fixed := fixpoint_descends steady known (below start known)
  refine ⟨above.1, Set.Subset.antisymm (F.le_gfp ?_) above.2⟩
  rw [← viewStep _ above.1, fixed]

theorem steady_of_members {vars : Finset Nat} {F : Set Valuation →o Set Valuation} (reads : ∀ r, K r → r.Reads vars)
    (keeps : ∀ r, K r → K (f r).value) (step : ∀ r, K r → (f r).value.members = F r.members) : Steady vars K f := by
  refine ⟨reads, keeps, fun r s knownR knownS le => ?_⟩
  rw [step r knownR, step s knownS]
  exact F.mono le

theorem members_least {F : Set Valuation →o Set Valuation} (reads : ∀ r, K r → r.Reads (Finset.range n : Finset Nat))
    (keeps : ∀ r, K r → K (f r).value) (step : ∀ r, K r → (f r).value.members = F r.members)
    (known : K .empty) : K (fixpoint n .empty f).value ∧ (fixpoint n .empty f).value.members = OrderHom.lfp F :=
  view_least (steady_of_members reads keeps step) known members_empty step

theorem members_greatest {F : Set Valuation →o Set Valuation} (reads : ∀ r, K r → r.Reads (Finset.range n : Finset Nat))
    (keeps : ∀ r, K r → K (f r).value) (step : ∀ r, K r → (f r).value.members = F r.members)
    (known : K start) (below : ∀ X, F X ⊆ start.members) :
    K (fixpoint n start f).value ∧ (fixpoint n start f).value.members = OrderHom.gfp F :=
  view_greatest (steady_of_members reads keeps step) known (fun r knownR => by rw [step r knownR]; exact below _) below step

end

end Coalition.Region
