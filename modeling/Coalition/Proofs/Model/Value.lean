import Mathlib.Data.List.Nodup
import Coalition.Proofs.Model.Step

-- There are bits enough for every value of a domain, so a code stands for one value; and bits that are all different take any values.

set_option autoImplicit false

namespace Coalition

theorem width_bound (n : Nat) : n ≤ 2 ^ width n := by
  unfold width
  split
  · omega
  · have less := @Nat.lt_log2_self (n - 1)
    omega

namespace Variable

variable {v : Variable} {ρ : Valuation} {i j : Nat}

theorem code_unique {bits : List Nat} {n : Nat} (wide : bits.length = width n) (first : i < n) (second : j < n)
    (here : ρ ∈ (code bits i).members) (there : ρ ∈ (code bits j).members) : i = j := by
  rw [Frame.mem_code] at here there
  have bound := width_bound n
  apply Nat.eq_of_testBit_eq
  intro place
  by_cases less : place < bits.length
  · have entry : (bits[place], place) ∈ bits.zipIdx := by
      rw [List.mem_zipIdx_iff_getElem?]
      exact List.getElem?_eq_getElem less
    exact (here _ entry).symm.trans (there _ entry)
  · have power : 2 ^ width n ≤ 2 ^ place := Nat.pow_le_pow_right Nat.zero_lt_two (by omega)
    rw [Nat.testBit_lt_two_pow (by omega), Nat.testBit_lt_two_pow (by omega)]

theorem mem_value : ρ ∈ (v.valueRegion false i).members ↔ ∀ entry ∈ v.bits.zipIdx, ρ entry.1 = i.testBit entry.2 :=
  Frame.mem_code

theorem mem_mask {next : Bool} : ρ ∈ (v.mask next).members ↔ ∃ i < v.domain.length, ρ ∈ (v.valueRegion next i).members := by
  unfold mask
  rw [Region.mem_union_all]
  simp only [List.mem_map, List.mem_range, exists_exists_and_eq_and]

end Variable

theorem exists_code {α : Type} {items : List α} (bits : α → List Nat) (nodup : (items.flatMap bits).Nodup) (index : α → Nat) :
    ∃ κ : Valuation, ∀ a ∈ items, κ ∈ (Variable.code (bits a) (index a)).members := by
  induction items with
  | nil => exact ⟨fun _ => false, by simp⟩
  | cons a rest ih =>
      rw [List.flatMap_cons, List.nodup_append'] at nodup
      obtain ⟨own, others, apart⟩ := nodup
      obtain ⟨κ, known⟩ := ih others
      refine ⟨fun b => if b ∈ bits a then (index a).testBit ((bits a).idxOf b) else κ b, ?_⟩
      refine List.forall_mem_cons.mpr ⟨?_, fun other listed => ?_⟩
      · rw [Frame.mem_code]
        intro entry zipped
        have member := List.fst_mem_of_mem_zipIdx zipped
        rw [List.mem_zipIdx_iff_getElem?] at zipped
        obtain ⟨less, same⟩ := List.getElem?_eq_some_iff.mp zipped
        rw [if_pos member, ← same, own.idxOf_getElem]
      · rw [Frame.mem_code]
        intro entry zipped
        have member : entry.1 ∈ rest.flatMap bits := List.mem_flatMap.mpr ⟨other, listed, List.fst_mem_of_mem_zipIdx zipped⟩
        rw [if_neg fun here => apart here member]
        exact Frame.mem_code.mp (known other listed) entry zipped

end Coalition
