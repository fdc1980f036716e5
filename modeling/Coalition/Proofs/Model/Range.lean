import Mathlib
import Coalition.Model.Domain
import Coalition.Proofs.Yields

-- The values of a range are counted up by a machine integer, which is never above a bound that is the largest one.

set_option autoImplicit false

namespace Coalition

-- A machine integer is counted up while it is not above the bound, with what it is each time. It goes on with the smallest one behind the
-- largest.
inductive Counts (high : Int64) : Int64 → List Int64 → Prop where
  | done {i : Int64} (above : high < i) : Counts high i []
  | more {i : Int64} {later : List Int64} (within : i ≤ high) (rest : Counts high (i + 1) later) : Counts high i (i :: later)

namespace Counts

variable {high i : Int64} {counted : List Int64}

theorem never (largest : high.toInt = Text.maxInteger) : ¬ Counts high i counted := by
  intro counts
  induction counts with
  | @done i above =>
      have bound := Int64.toInt_lt i
      rw [Int64.lt_iff_toInt_lt, largest, Text.maxInteger] at above
      omega
  | more _ _ ih => exact ih

theorem unique {other : List Int64} (counts : Counts high i counted) (countsToo : Counts high i other) : counted = other := by
  induction counts generalizing other with
  | done above =>
      cases countsToo with
      | done => rfl
      | more within => exact absurd within (Int64.not_le.mpr above)
  | more within _ ih =>
      cases countsToo with
      | done above => exact absurd within (Int64.not_le.mpr above)
      | more _ rest => rw [ih rest]

theorem succ_to_int (smaller : i.toInt < Text.maxInteger) : (i + 1).toInt = i.toInt + 1 := by
  have least := Int64.le_toInt i
  unfold Text.maxInteger at smaller
  rw [Int64.toInt_add, Int64.toInt_one, Int.bmod_eq_of_le (by omega) (by omega)]

theorem exists_counted (smaller : high.toInt < Text.maxInteger) (count : Nat) (left : (high.toInt - i.toInt + 1).toNat = count) :
    ∃ counted, Counts high i counted ∧ counted.map (·.toInt) = integersFrom i.toInt count := by
  induction count generalizing i with
  | zero => exact ⟨[], .done (Int64.lt_iff_toInt_lt.mpr (by omega)), rfl⟩
  | succ count ih =>
      have within : i.toInt ≤ high.toInt := by omega
      have next := succ_to_int (Int.lt_of_le_of_lt within smaller)
      obtain ⟨counted, counts, same⟩ := @ih (i + 1) (by omega)
      refine ⟨i :: counted, .more (Int64.le_iff_toInt_le.mpr within) counts, ?_⟩
      rw [List.map_cons, same, next, integersFrom]

end Counts

theorem integers_from_eq (first : Int) (count : Nat) : integersFrom first count = (List.range count).map fun i : Nat => first + i := by
  induction count generalizing first with
  | zero => rfl
  | succ count ih =>
      rw [integersFrom, ih, List.range_succ_eq_map, List.map_cons, List.map_map]
      simp [Function.comp_def, Int.add_assoc, Int.add_comm 1]

theorem read_decimal_fits (text : String) : Yields (Text.readDecimal text) fun n => Text.minInteger ≤ n ∧ n ≤ Text.maxInteger := by
  refine yields_map_error fun n read => ?_
  have checked {value : Int} (read : (if (value < Text.minInteger || Text.maxInteger < value) = true then
      .error Text.NumberFault.outOfRange else .ok value) = Except.ok n) : Text.minInteger ≤ n ∧ n ≤ Text.maxInteger := by
    split at read
    · cases read
    · rename_i inside
      cases read
      simpa using inside
  unfold Text.readSigned at read
  dsimp only at read
  split at read
  · cases read
  · exact checked read

theorem of_int_to_int {n : Int} (fits : Text.minInteger ≤ n ∧ n ≤ Text.maxInteger) : (Int64.ofInt n).toInt = n := by
  unfold Text.minInteger Text.maxInteger at fits
  exact Int64.toInt_ofInt_of_le (by omega) (by omega)

section

variable {text : String} {before behind : List Char} {low high : Int} (split : splitAtDots text.toList = some (before, behind))
  (first : Text.readDecimal (Text.trimBlank (String.ofList before)) = .ok low)
  (last : Text.readDecimal (Text.trimBlank (String.ofList behind)) = .ok high)

include split first last

theorem scalar_range : scalarValues text = rangeValues text low high := by
  have other : (text == "boolean") = false := by
    rw [beq_eq_false_iff_ne]
    rintro rfl
    have none : splitAtDots "boolean".toList = none := rfl
    cases none.symm.trans split
  simp only [scalarValues, other, split, first, last, Bool.false_eq_true, if_false]
  rfl

/-- The values of a range are what a machine integer counts up from the lower bound. They are the texts of all integers between the bounds,
in their order and each of them once, unless the upper bound is the largest integer and not below the lower one: then the count never ends. -/
theorem range_values :
    (∀ values, scalarValues text = .ok values ↔
      ∃ counted, Counts (.ofInt high) (.ofInt low) counted ∧ values = counted.map fun n => toString n.toInt) ∧
    (high < low ∨ high ≠ Text.maxInteger → ∃ values, scalarValues text = .ok values ∧ values.Nodup ∧
      values = (List.range (high - low + 1).toNat).map fun i : Nat => toString (low + i)) ∧
    (low ≤ high → high = Text.maxInteger →
      scalarValues text = .error (.endless text) ∧ ∀ counted, ¬ Counts (.ofInt high) (.ofInt low) counted) := by
  have lowFits := read_decimal_fits _ _ first
  have highFits := read_decimal_fits _ _ last
  have lowSame := of_int_to_int lowFits
  have highSame := of_int_to_int highFits
  rw [scalar_range split first last]
  by_cases largest : high = Text.maxInteger
  · have within : ¬ high < low := by omega
    have never : ∀ counted, ¬ Counts (.ofInt high) (.ofInt low) counted := fun _ => Counts.never (highSame.trans largest)
    rw [rangeValues, if_neg within, if_pos largest]
    exact ⟨fun values => iff_of_false nofun fun ⟨_, counts, _⟩ => never _ counts,
      fun plain => absurd plain (not_or.mpr ⟨within, not_not.mpr largest⟩), fun _ _ => ⟨rfl, never⟩⟩
  · obtain ⟨counted, counts, same⟩ := @Counts.exists_counted _ (.ofInt low) (by omega : (Int64.ofInt high).toInt < Text.maxInteger)
      (high - low + 1).toNat (by rw [lowSame, highSame])
    rw [lowSame, integers_from_eq] at same
    have texts : counted.map (fun n => toString n.toInt) = (List.range (high - low + 1).toNat).map fun i : Nat => toString (low + i) := by
      have split : counted.map (fun n => toString n.toInt) = (counted.map (·.toInt)).map toString := by
        rw [List.map_map]
        rfl
      rw [split, same, List.map_map]
      rfl
    have whole : rangeValues text low high = .ok ((List.range (high - low + 1).toNat).map fun i : Nat => toString (low + i)) := by
      unfold rangeValues
      by_cases none : high < low
      · rw [if_pos none, Int.toNat_of_nonpos (by omega), List.range_zero, List.map_nil]
      · rw [if_neg none, if_neg largest, integers_from_eq, List.map_map]
        rfl
    rw [whole]
    refine ⟨fun values => ?_, fun _ => ⟨_, rfl, ?_, rfl⟩, fun _ top => absurd top largest⟩
    · constructor
      · rintro ⟨⟩
        exact ⟨counted, counts, texts.symm⟩
      · rintro ⟨other, countsToo, rfl⟩
        rw [← counts.unique countsToo, texts]
    · refine List.nodup_range.map fun i j equal => ?_
      have equal := Int.repr_injective equal
      omega

end

theorem range_values_signs : scalarValues "-1 .. 1" = .ok ["-1", "0", "1"] ∧
    (∃ counted, Counts 1 (-1) counted ∧ ["-1", "0", "1"] = counted.map fun n => toString n.toInt) ∧
    ∀ counted, ¬ Counts (.ofInt 9223372036854775807) (.ofInt 9223372036854775806) counted := by
  obtain ⟨each, some, _⟩ := @range_values "-1 .. 1" _ _ (-1) 1 rfl rfl rfl
  obtain ⟨_, _, never⟩ := @range_values "9223372036854775806..9223372036854775807" _ _ 9223372036854775806 9223372036854775807
    rfl rfl rfl
  obtain ⟨values, read, _, rfl⟩ := some (.inr (by decide))
  exact ⟨read, (each _).mp read, (never (by decide) rfl).2⟩

end Coalition
