import Mathlib.Algebra.Ring.Nat
import Mathlib.Logic.Function.Iterate
import Coalition.Proofs.Region.Fixpoint

-- Loops that apply a function to a region until it stays.

set_option autoImplicit false

namespace Coalition

namespace Region

abbrev Over (r : Region) (n : Nat) : Prop := r.Reads (Finset.range n : Finset Nat)

-- A function on the regions over some variables that keeps inclusion.
structure Isotone (n : Nat) (f : Region → Region) : Prop where
  keeps : ∀ r, r.Over n → (f r).Over n
  mono : ∀ r s, r.Over n → s.Over n → r.members ⊆ s.members → (f r).members ⊆ (f s).members

namespace Isotone

variable {n : Nat} {f g : Region → Region} {s t : Region}

theorem id : Isotone n fun r => r := ⟨fun _ spans => spans, fun _ _ _ _ le => le⟩

theorem const (spans : s.Over n) : Isotone n fun _ => s := ⟨fun _ _ => spans, fun _ _ _ _ _ => Set.Subset.refl _⟩

theorem inter (left : Isotone n f) (right : Isotone n g) : Isotone n fun r => (f r).inter (g r) where
  keeps r spans := (left.keeps r spans).inter (right.keeps r spans)
  mono r s first second le := by
    rw [members_inter, members_inter]
    exact Set.inter_subset_inter (left.mono r s first second le) (right.mono r s first second le)

theorem union (left : Isotone n f) (right : Isotone n g) : Isotone n fun r => (f r).union (g r) where
  keeps r spans := (left.keeps r spans).union (right.keeps r spans)
  mono r s first second le := by
    rw [members_union, members_union]
    exact Set.union_subset_union (left.mono r s first second le) (right.mono r s first second le)

theorem hide (isotone : Isotone n f) (vars : List Nat) : Isotone n fun r => (f r).hide vars where
  keeps r spans := (isotone.keeps r spans).hide_within vars
  mono r s first second le := hide_mono vars (isotone.mono r s first second le)

theorem comp (outer : Isotone n g) (inner : Isotone n f) : Isotone n fun r => g (f r) where
  keeps r spans := outer.keeps _ (inner.keeps r spans)
  mono r s first second le := outer.mono _ _ (inner.keeps r first) (inner.keeps s second) (inner.mono r s first second le)

theorem dual (isotone : Isotone n f) (whole : s.Over n) (rest : t.Over n) : Isotone n fun r => s.diff (f (t.diff r)) where
  keeps r spans := whole.diff (isotone.keeps _ (rest.diff spans))
  mono r r' first second le := by
    have fewer : (t.diff r').members ⊆ (t.diff r).members := by
      rw [members_diff, members_diff]
      exact Set.sdiff_subset_sdiff_right le
    rw [members_diff, members_diff]
    exact Set.sdiff_subset_sdiff_right (isotone.mono _ _ (rest.diff second) (rest.diff first) fewer)

theorem fold_union {α : Type} {h : α → Region → Region} (items : List α) (each : ∀ a ∈ items, Isotone n (h a)) (first : Isotone n g) :
    Isotone n fun r => items.foldl (fun s a => s.union (h a r)) (g r) := by
  induction items generalizing g with
  | nil => exact first
  | cons a rest ih =>
      obtain ⟨here, others⟩ := List.forall_mem_cons.mp each
      exact ih others (first.union here)

theorem union_all {α : Type} {h : α → Region → Region} (items : List α) (each : ∀ a ∈ items, Isotone n (h a)) :
    Isotone n fun r => unionAll (items.map fun a => h a r) := by
  have folded := fold_union items each (const (reads_empty _))
  simpa only [unionAll, List.foldl_map] using folded

end Isotone

def visited (f : Region → Counted Region) : (fuel : Nat) → Region → List Region
  | 0, _ => []
  | fuel + 1, x => x :: if (f x).value = x then [] else visited f fuel (f x).value

section

variable {f : Region → Counted Region}

theorem iterate_steps (fuel : Nat) (x : Region) :
    (iterate f fuel x).steps = ((visited f fuel x).map fun r => (f r).steps + 1).sum := by
  induction fuel generalizing x with
  | zero => rfl
  | succ fuel ih =>
      unfold iterate visited
      by_cases fixed : (f x).value = x
      · simp [fixed]
      · simp [fixed, ih]

theorem visited_keeps {K : Region → Prop} (keeps : ∀ r, K r → K (f r).value) (fuel : Nat) (x : Region) (known : K x) :
    ∀ r ∈ visited f fuel x, K r := by
  induction fuel generalizing x with
  | zero => exact List.forall_mem_nil K
  | succ fuel ih =>
      unfold visited
      refine List.forall_mem_cons.mpr ⟨known, ?_⟩
      split
      · exact List.forall_mem_nil K
      · exact ih _ (keeps x known)

theorem iterate_stops (fuel : Nat) (x : Region) : ∃ k ≤ fuel, (iterate f fuel x).value = (fun r => (f r).value)^[k] x ∧
    (∀ j < k, (f ((fun r => (f r).value)^[j] x)).value ≠ (fun r => (f r).value)^[j] x) ∧
    (k < fuel → (f ((fun r => (f r).value)^[k] x)).value = (fun r => (f r).value)^[k] x) := by
  induction fuel generalizing x with
  | zero => exact ⟨0, le_rfl, rfl, nofun, nofun⟩
  | succ fuel ih =>
      unfold iterate
      by_cases fixed : (f x).value = x
      · exact ⟨0, Nat.zero_le _, by simp only [if_pos fixed, Function.iterate_zero, id], nofun, fun _ => fixed⟩
      · obtain ⟨k, le, same, moves, stays⟩ := ih (f x).value
        refine ⟨k + 1, Nat.succ_le_succ le, ?_, fun j less => ?_, fun less => ?_⟩
        · simpa only [if_neg fixed, Function.iterate_succ_apply] using same
        · cases j with
          | zero => exact fixed
          | succ j => exact moves j (Nat.lt_of_succ_lt_succ less)
        · exact stays (Nat.lt_of_succ_lt_succ less)

end

end Region

inductive Direction where
  | up
  | down

namespace Direction

def le : Direction → Region → Region → Prop
  | .up, r, s => r.members ⊆ s.members
  | .down, r, s => s.members ⊆ r.members

def distance (n : Nat) : Direction → Region → Nat
  | .up, r => r.weight (Finset.range n)
  | .down, r => 2 ^ n - r.weight (Finset.range n)

variable {d : Direction} {n : Nat} {r s t : Region} {f g : Region → Region}

theorem le_refl (d : Direction) (r : Region) : d.le r r := by cases d <;> exact Set.Subset.refl _

theorem le_trans (first : d.le r s) (second : d.le s t) : d.le r t := by
  cases d with
  | up => exact Set.Subset.trans first second
  | down => exact Set.Subset.trans second first

theorem le_map (isotone : Region.Isotone n f) (left : r.Over n) (right : s.Over n) (le : d.le r s) : d.le (f r) (f s) := by
  cases d with
  | up => exact isotone.mono r s left right le
  | down => exact isotone.mono s r right left le

theorem weight_le (n : Nat) (r : Region) : r.weight (Finset.range n) ≤ 2 ^ n := by
  have bound := Region.weight_bound (Finset.range n) r
  rwa [Finset.card_range] at bound

theorem distance_le (d : Direction) (n : Nat) (r : Region) : d.distance n r ≤ 2 ^ n := by
  cases d with
  | up => exact weight_le n r
  | down => exact Nat.sub_le _ _

theorem distance_less (left : r.Over n) (right : s.Over n) (le : d.le r s) (different : r ≠ s) : d.distance n r < d.distance n s := by
  cases d with
  | up => exact Region.weight_strict right le different left
  | down =>
      have less := Region.weight_strict left le different.symm right
      have bound := weight_le n r
      show 2 ^ n - r.weight (Finset.range n) < 2 ^ n - s.weight (Finset.range n)
      omega

end Direction

structure Loop where
  direction : Direction
  start : Region
  step : Region → Counted Region

namespace Loop

variable (l : Loop) (n : Nat)

def iterate (k : Nat) : Region := (fun r => (l.step r).value)^[k] l.start

def run : Counted Region := Region.fixpoint n l.start l.step

def visited : List Region := Region.visited l.step (Nat.pow 2 n + 1) l.start

structure Rests (r : Region) : Prop where
  spans : r.Over n
  fixed : (l.step r).value = r
  beyond : l.direction.le l.start r

-- The loop goes along a chain and ends, at the nearest region where its function stays: the least one above the start or the greatest one
-- below it.
structure Settles : Prop where
  isotone : Region.Isotone n fun r => (l.step r).value
  begins : l.direction.le l.start (l.step l.start).value
  chain : ∀ i j, i ≤ j → l.direction.le (l.iterate i) (l.iterate j)
  ends : ∃ k ≤ 2 ^ n, (∀ j < k, (l.step (l.iterate j)).value ≠ l.iterate j) ∧ (l.step (l.iterate k)).value = l.iterate k ∧
    (l.run n).value = l.iterate k
  rests : l.Rests n (l.run n).value
  nearest : ∀ r, l.Rests n r → l.direction.le (l.run n).value r

variable {l n}

theorem iterate_succ (l : Loop) (k : Nat) : l.iterate (k + 1) = (l.step (l.iterate k)).value :=
  Function.iterate_succ_apply' _ k l.start

section

variable (start : l.start.Over n) (isotone : Region.Isotone n fun r => (l.step r).value)
  (begins : l.direction.le l.start (l.step l.start).value)

include start isotone

theorem iterate_over (k : Nat) : (l.iterate k).Over n := by
  induction k with
  | zero => exact start
  | succ k ih =>
      rw [iterate_succ]
      exact isotone.keeps _ ih

theorem iterate_below {r : Region} (spans : r.Over n) (beyond : l.direction.le l.start r) (closed : l.direction.le (l.step r).value r)
    (k : Nat) : l.direction.le (l.iterate k) r := by
  induction k with
  | zero => exact beyond
  | succ k ih =>
      rw [iterate_succ]
      exact Direction.le_trans (Direction.le_map isotone (iterate_over start isotone k) spans ih) closed

include begins

theorem iterate_next (k : Nat) : l.direction.le (l.iterate k) (l.iterate (k + 1)) := by
  induction k with
  | zero => exact begins
  | succ k ih =>
      rw [iterate_succ l k, iterate_succ l (k + 1)]
      exact Direction.le_map isotone (iterate_over start isotone k) (iterate_over start isotone (k + 1)) ih

theorem iterate_chain (i j : Nat) (le : i ≤ j) : l.direction.le (l.iterate i) (l.iterate j) := by
  induction j, le using Nat.le_induction with
  | base => exact Direction.le_refl _ _
  | succ j _ ih => exact Direction.le_trans ih (iterate_next start isotone begins j)

theorem iterate_far {k : Nat} (moves : ∀ j < k, (l.step (l.iterate j)).value ≠ l.iterate j) : k ≤ l.direction.distance n (l.iterate k) := by
  induction k with
  | zero => exact Nat.zero_le _
  | succ k ih =>
      have before := ih fun j less => moves j (Nat.lt_succ_of_lt less)
      have different : l.iterate k ≠ l.iterate (k + 1) := fun same => moves k (Nat.lt_succ_self k) ((iterate_succ l k).symm.trans same.symm)
      have farther := Direction.distance_less (iterate_over start isotone k) (iterate_over start isotone (k + 1))
        (iterate_next start isotone begins k) different
      omega

theorem settles : l.Settles n := by
  have ends : ∃ k ≤ 2 ^ n, (∀ j < k, (l.step (l.iterate j)).value ≠ l.iterate j) ∧ (l.step (l.iterate k)).value = l.iterate k ∧
      (l.run n).value = l.iterate k := by
    obtain ⟨k, _, same, moves, stays⟩ := @Region.iterate_stops l.step (Nat.pow 2 n + 1) l.start
    have bound : k ≤ 2 ^ n := (iterate_far start isotone begins moves).trans (Direction.distance_le _ _ _)
    exact ⟨k, bound, moves, stays (Nat.lt_succ_of_le bound), same⟩
  obtain ⟨k, _, _, stays, same⟩ := id ends
  refine ⟨isotone, begins, iterate_chain start isotone begins, ends, ?_, fun r rests => ?_⟩
  · rw [same]
    exact ⟨iterate_over start isotone k, stays, iterate_chain start isotone begins 0 k (Nat.zero_le k)⟩
  · rw [same]
    exact iterate_below start isotone rests.spans rests.beyond (rests.fixed.symm ▸ Direction.le_refl _ _) k

end

-- Of two loops from one start, the one whose function leads farther everywhere ends farther.
theorem run_le {other : Loop} (start : l.start.Over n) (settles : l.Settles n) (settlesToo : other.Settles n)
    (direction : other.direction = l.direction) (begin : other.start = l.start)
    (le : ∀ r, r.Over n → l.direction.le (l.step r).value (other.step r).value) : l.direction.le (l.run n).value (other.run n).value := by
  obtain ⟨spans, fixed, beyond⟩ := settlesToo.rests
  obtain ⟨k, _, _, _, same⟩ := settles.ends
  have closed := le _ spans
  rw [fixed] at closed
  rw [direction, begin] at beyond
  rw [same]
  exact iterate_below start settles.isotone spans beyond closed k

end Loop

end Coalition
