import Mathlib
import Tween.Number.Nearest

namespace Tween.Number

open Float.Model (UnpackedFloat Format totalExponent)
open Float.Model.UnpackedFloat

theorem isInf_unpack_of_exponent_ne (b : BitVec Format.binary64.numBits)
    (h : unpackExponent b ≠ -1#_) : (UnpackedFloat.unpack .binary64 b).isInf = false := by
  unfold UnpackedFloat.unpack
  simp only [h, if_false]
  split
  · split <;> rfl
  · rfl

theorem isInf_ofParts_finite (s : Sign) (m : Nat) (e : Int) (hm : 0 < m) (he : e ≤ 971) :
    (ofParts (.finite s m e hm)).isInf = false := by
  change (UnpackedFloat.unpack .binary64 (UnpackedFloat.pack .binary64 _)).isInf = false
  apply isInf_unpack_of_exponent_ne
  have hbias : (Format.binary64.exponentBias : Int) = 1023 := by decide
  have hones : (-1#11).toNat = 2047 := by decide
  unfold UnpackedFloat.pack
  simp only [hbias]
  rw [if_neg (by simp only [Nat.reducePow]; omega)]
  split
  · rw [unpackExponent_packComponents]
    intro h
    have h := congrArg BitVec.toNat h
    rw [hones, BitVec.toNat_ofNat] at h
    omega
  · rw [unpackExponent_packComponents]
    decide

theorem isInf_ofParts_zero (s : Sign) : (ofParts (.zero s)).isInf = false := by
  cases s <;> decide

theorem mantissa_shiftRight (em : ExtendedMantissa) (n : Nat) :
    (em >>> n).mantissa = em.mantissa / 2 ^ n := by
  change (n.repeat ExtendedMantissa.shiftRightOne em).mantissa = _
  induction n with
  | zero => simp [Nat.repeat]
  | succ n ih =>
    rw [Nat.repeat, ExtendedMantissa.shiftRightOne, ih, Nat.pow_succ, Nat.div_div_eq_div_mul]

theorem roundedMantissa_le (em : ExtendedMantissa) : em.roundedMantissa ≤ em.mantissa + 1 := by
  obtain ⟨m, r, s⟩ := em
  cases r <;> cases s <;>
    simp only [ExtendedMantissa.roundedMantissa, ExtendedMantissa.accuracy,
      Accuracy.roundToNearestEven] <;> omega

theorem mantissa_ofMantissaAndAccuracy (m : Nat) (a : Accuracy) :
    (ExtendedMantissa.ofMantissaAndAccuracy m a).mantissa = m := by
  rcases a with _ | _ | _ | _ <;> rfl

theorem log2_le_of_le_two_pow {m k : Nat} (h : m ≤ 2 ^ k) : m.log2 ≤ k := by
  rcases Nat.eq_zero_or_pos m with rfl | hm
  · simp
  · have := (Nat.log2_lt (by omega)).mpr (Nat.lt_of_le_of_lt h (Nat.pow_lt_pow_succ Nat.one_lt_two))
    omega

theorem targetExponent_at_most_one {m : Nat} {e : Int} (he : e ≤ 0) (hm : m ≤ 2 ^ (-e).toNat) :
    Format.binary64.targetExponent (totalExponent m e) ≤ 0 := by
  have hlog := log2_le_of_le_two_pow hm
  have hmin : Format.binary64.minExponent = -1074 := by decide
  simp only [Format.targetExponent, totalExponent, hmin, Format.mantissaBits]
  omega

theorem shiftToTargetExponent_eq (m : Nat) (e : Int) (a : Accuracy) :
    shiftToTargetExponent .binary64 m e a =
      (ExtendedMantissa.ofMantissaAndAccuracy m a >>>
          (Format.binary64.targetExponent (totalExponent m e) - e).toNat,
        e + (Format.binary64.targetExponent (totalExponent m e) - e).toNat) := rfl

theorem exponent_shiftToTargetExponent {m : Nat} {e : Int} (a : Accuracy) (he : e ≤ 0)
    (hm : m ≤ 2 ^ (-e).toNat) : (shiftToTargetExponent .binary64 m e a).2 ≤ 0 := by
  have := targetExponent_at_most_one he hm
  rw [shiftToTargetExponent_eq]
  dsimp only
  omega

theorem mantissa_shiftToTargetExponent {m : Nat} {e : Int} (a : Accuracy) (he : e ≤ 0)
    (hm : m < 2 ^ (-e).toNat) :
    (shiftToTargetExponent .binary64 m e a).1.mantissa <
      2 ^ (-(shiftToTargetExponent .binary64 m e a).2).toNat := by
  have htarget := targetExponent_at_most_one he (Nat.le_of_lt hm)
  rw [shiftToTargetExponent_eq]
  generalize Format.binary64.targetExponent (totalExponent m e) = target at htarget
  dsimp only
  rw [mantissa_shiftRight, mantissa_ofMantissaAndAccuracy]
  apply Nat.div_lt_of_lt_mul
  rw [← Nat.pow_add]
  apply Nat.lt_of_lt_of_le hm
  apply Nat.pow_le_pow_right Nat.two_pos
  omega

/-- Rounding a number below one gives zero or a number with a negative exponent. -/
theorem isInf_roundWithAccuracy {m : Nat} {e : Int} (s : Sign) (a : Accuracy) (he : e ≤ 0)
    (hm : m < 2 ^ (-e).toNat) :
    (ofParts (roundWithAccuracy .binary64 s m e a)).isInf = false := by
  have hexp := exponent_shiftToTargetExponent a he (Nat.le_of_lt hm)
  have hmant := mantissa_shiftToTargetExponent a he hm
  have hround := roundedMantissa_le (shiftToTargetExponent .binary64 m e a).1
  have hfinal := exponent_shiftToTargetExponent .exact hexp (Nat.le_trans hround hmant)
  -- Rounding up may carry into a new binary place, so the exponent is bounded once more after it.
  unfold roundWithAccuracy
  dsimp only
  split
  · exact isInf_ofParts_zero s
  · exact isInf_ofParts_finite s _ _ _ (by omega)

theorem isInf_nearest_of_lt (negative : Bool) {a b : Nat} (h : a < b) :
    (nearest negative a b).isInf = false := by
  unfold nearest
  split
  · rw [dif_pos (by omega)]
    unfold UnpackedFloat.div divCore
    dsimp only
    apply isInf_roundWithAccuracy
    · omega
    · apply Nat.div_lt_of_lt_mul
      rw [Nat.shiftLeft_eq]
      generalize (min _ _ : Int) = target
      rw [show (0 - 0 - target : Int) = -target by omega]
      exact Nat.mul_lt_mul_of_pos_right h (Nat.two_pow_pos _)
  · exact isInf_ofParts_zero _

theorem quotient_of_lt {a b : Int} (ha : 0 ≤ a) (hab : a < b) :
    quotient a b = .ok (nearest false a.natAbs b.natAbs) := by
  have hsign : ((decide (a < 0)) != (decide (b < 0))) = false := by
    rw [decide_eq_false (by omega), decide_eq_false (by omega)]
    rfl
  have hfinite := isInf_nearest_of_lt false (show a.natAbs < b.natAbs by omega)
  rw [quotient, if_neg (by omega), hsign]
  exact if_neg (by rw [hfinite]; exact Bool.false_ne_true)

end Tween.Number
