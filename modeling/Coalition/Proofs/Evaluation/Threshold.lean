import Coalition.Number.Binary64
import Coalition.Proofs.Model.States

-- A threshold below one is not met while no state is set aside.

set_option autoImplicit false

namespace Coalition

theorem System.WellFormed.count_states_pos {sys : System} (wf : sys.WellFormed) {s : Region} (known : sys.StateSet s)
    (some : s.members.Nonempty) : 0 < sys.countStates s := by
  obtain ⟨ρ, member⟩ := some
  refine Frame.length_le_count wf.laid known (List.nodup_singleton (sys.stateOf ρ)) fun u only => ?_
  rw [List.mem_singleton.mp only]
  exact ⟨(Frame.mem_state_of known.reads).mpr member, Frame.state_of_state ρ⟩

namespace Binary64

theorem round_ratio_le (num den : Nat) : 2 * (roundRatio num den * den) ≤ 2 * num + den := by
  have parts := Nat.div_add_mod num den
  unfold roundRatio
  dsimp only
  split
  · rename_i up
    have half : den ≤ 2 * (num % den) := by
      simp only [Bool.or_eq_true, decide_eq_true_eq, Bool.and_eq_true, beq_iff_eq] at up
      omega
    have product : den * (num / den) = num / den * den := Nat.mul_comm _ _
    rw [Nat.add_mul]
    omega
  · have product : den * (num / den) = num / den * den := Nat.mul_comm _ _
    omega

theorem round_bits_le (precision n : Nat) : roundBits precision n * 2 ^ precision ≤ n * 2 ^ precision + n := by
  obtain rfl | some := Nat.eq_zero_or_pos n
  · simp [roundBits]
  have isNonzero : (n == 0) = false := beq_eq_false_iff_ne.mpr (Nat.ne_of_gt some)
  unfold roundBits
  rw [isNonzero, if_neg Bool.false_ne_true]
  dsimp only
  split
  · exact Nat.le_add_right _ _
  · rename_i long
    have rounded := round_ratio_le n (Nat.pow 2 (n.log2 + 1 - precision))
    have unit : Nat.pow 2 (n.log2 + 1 - precision) * 2 ^ precision = 2 * 2 ^ n.log2 := by
      change 2 ^ _ * 2 ^ precision = _
      rw [← pow_add, ← pow_succ']
      congr 1
      omega
    have least : 2 ^ n.log2 ≤ n := Nat.log2_self_le (Nat.ne_of_gt some)
    have scaled := Nat.mul_le_mul_right (2 ^ precision) rounded
    rw [Nat.add_mul, unit] at scaled
    have left : 2 * (roundRatio n (Nat.pow 2 (n.log2 + 1 - precision)) * Nat.pow 2 (n.log2 + 1 - precision)) * 2 ^ precision =
      2 * (roundRatio n (Nat.pow 2 (n.log2 + 1 - precision)) * Nat.pow 2 (n.log2 + 1 - precision) * 2 ^ precision) := Nat.mul_assoc _ _ _
    have right : 2 * n * 2 ^ precision = 2 * (n * 2 ^ precision) := Nat.mul_assoc _ _ _
    omega

-- A number from zero on and below one, with at most 53 bits.
def Fraction : Binary64 → Prop
  | .finite negative mantissa exponent =>
      mantissa < 2 ^ 53 ∧ if negative then mantissa = 0 else (ratio mantissa exponent).1 < (ratio mantissa exponent).2
  | _ => False

-- No number of states stays within the bound when none was set aside.
def Reduces (b : Binary64) : Prop := ∀ count size, 0 < size → ∃ stop, b.allows count size = some stop ∧ (stop = true → count < size)

theorem Fraction.reduces {b : Binary64} (fraction : b.Fraction) : b.Reduces := by
  intro count size some
  cases b with
  | nan => exact fraction.elim
  | infinite => exact fraction.elim
  | finite negative mantissa exponent =>
      refine ⟨_, rfl, fun stop => ?_⟩
      obtain ⟨short, below⟩ := fraction
      cases negative with
      | true =>
          rw [if_pos rfl, Bool.and_eq_true, beq_iff_eq] at stop
          exact stop.1 ▸ some
      | false =>
          rw [if_neg Bool.false_ne_true] at stop below
          rw [decide_eq_true_eq] at stop
          have held : count * (ratio (roundBits (max 64 (if size == 0 then 0 else size.log2 + 1)) (size * mantissa)) exponent).2 ≤
            (ratio (roundBits (max 64 (if size == 0 then 0 else size.log2 + 1)) (size * mantissa)) exponent).1 := stop
          generalize precision : max 64 (if size == 0 then 0 else size.log2 + 1) = bits at held
          have wide : 2 ^ 53 ≤ 2 ^ bits := Nat.pow_le_pow_right (by omega) (by omega)
          have rounded := round_bits_le bits (size * mantissa)
          unfold ratio scaleRatio at held below
          by_contra all
          split at held
          · rename_i small
            rw [if_pos small] at below
            dsimp only at held below
            -- rounding cannot make up for the part of every state that the threshold leaves out
            have least : size * (mantissa + 1) ≤ roundBits bits (size * mantissa) :=
              (Nat.mul_le_mul (Nat.le_of_not_lt all) below).trans held
            have scaled := (Nat.mul_le_mul_right (2 ^ bits) least).trans rounded
            rw [Nat.mul_add, Nat.add_mul, Nat.mul_one] at scaled
            have less : size * mantissa < size * 2 ^ bits := Nat.mul_lt_mul_of_pos_left (short.trans_le wide) some
            omega
          · rename_i large
            rw [if_neg large] at below
            dsimp only at held below
            have zero : mantissa = 0 := by
              by_contra more
              have some := Nat.mul_pos (Nat.pos_of_ne_zero more) (Nat.two_pow_pos (- -exponent).toNat)
              exact Nat.not_lt.mpr some below
            subst zero
            have nothing : roundBits bits (size * 0) = 0 := by simp [roundBits]
            rw [nothing] at held
            omega

end Binary64

end Coalition
