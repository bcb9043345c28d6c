import Tween.Proofs.Precision

namespace Tween.Number

open Float.Model (UnpackedFloat Format totalExponent)
open Float.Model.UnpackedFloat

/-- The exact square root of a mantissa lies where its whole root and the rest say, and there is such a
number below any bound on it. -/
theorem exists_lies_sqrt {M : ℕ} {c : ℚ} (hc : 0 ≤ c) (h : (M : ℚ) ≤ c ^ 2) :
    ∃ y, Lies (.ofMantissaAndAccuracy M.sqrt (if M - M.sqrt * M.sqrt = 0 then .exact
      else .inexact (if M - M.sqrt * M.sqrt ≤ M.sqrt then .lt else .gt))) y ∧
      (M.sqrt : ℚ) ≤ y ∧ y ≤ c := by
  have hlow := Nat.sqrt_le' M
  have hhigh := Nat.lt_succ_sqrt' M
  generalize M.sqrt = r at *
  rw [← pow_two]
  split_ifs with hexact hnear
  · have hsquare : M = r ^ 2 := by omega
    rw [hsquare, Nat.cast_pow] at h
    exact ⟨r, rfl, le_rfl, le_of_sq_le_sq h hc⟩
  · have hless : (r : ℚ) ^ 2 < M := by exact_mod_cast (show r ^ 2 < M by omega)
    have hroot : (r : ℚ) < c := lt_of_pow_lt_pow_left₀ 2 hc (hless.trans_le h)
    refine ⟨min c (r + 1 / 4), ⟨?_, ?_⟩, ?_, min_le_left _ _⟩
    · exact lt_min hroot (by linarith)
    · exact (min_le_right _ _).trans_lt (by linarith)
    · exact le_min hroot.le (by linarith)
  · have hless : ((r : ℚ) + 1 / 2) ^ 2 < M := by
      have : ((r ^ 2 + r + 1 : ℕ) : ℚ) ≤ M := by exact_mod_cast (show r ^ 2 + r + 1 ≤ M by omega)
      push_cast at this
      linarith
    have hroot : (r : ℚ) + 1 / 2 < c := lt_of_pow_lt_pow_left₀ 2 hc (hless.trans_le h)
    refine ⟨min c (r + 3 / 4), ⟨?_, ?_⟩, ?_, min_le_left _ _⟩
    · exact lt_min hroot (by linarith)
    · exact (min_le_right _ _).trans_lt (by linarith)
    · exact le_min (by linarith) (by linarith)

theorem le_target_of_sqrt_le {m : ℕ} {e t : ℤ} (hm : 0 < m) (hshift : 2 * t ≤ e)
    (ht : t ≤ Format.binary64.targetExponent ((totalExponent m e + 1).ediv 2)) {y : ℚ}
    (hy : ((m <<< (e - 2 * t).toNat).sqrt : ℚ) ≤ y) : t ≤ target (y * 2 ^ t) := by
  have hmin : Format.binary64.minExponent = -1074 := by decide
  simp only [Format.targetExponent, totalExponent, hmin, Format.mantissaBits] at ht
  obtain ⟨k, hk⟩ : ∃ k : ℕ, e - 2 * t = k := ⟨(e - 2 * t).toNat, by omega⟩
  rw [hk, Int.toNat_natCast, Nat.shiftLeft_eq] at hy
  -- The root has half of the bits of the mantissa.
  have hroot : 2 ^ ((m.log2 + k) / 2) ≤ (m * 2 ^ k).sqrt := by
    rw [Nat.le_sqrt', ← pow_mul]
    calc 2 ^ ((m.log2 + k) / 2 * 2) ≤ 2 ^ (m.log2 + k) :=
          Nat.pow_le_pow_right two_pos (Nat.div_mul_le_self _ _)
      _ = 2 ^ m.log2 * 2 ^ k := pow_add _ _ _
      _ ≤ m * 2 ^ k := Nat.mul_le_mul_right _ (Nat.log2_self_le hm.ne')
  have hpow : (2 : ℚ) ^ ((m.log2 + k) / 2) ≤ y := le_trans (by exact_mod_cast hroot) hy
  have hpos : 0 < y * 2 ^ t := mul_pos (lt_of_lt_of_le (by positivity) hpow) (zpow_pos two_pos t)
  have hlog : ((m.log2 + k) / 2 : ℕ) + t ≤ Int.log 2 (y * 2 ^ t) := by
    rw [← Int.zpow_le_iff_le_log one_lt_two hpos, Nat.cast_ofNat, zpow_add₀ two_ne_zero, zpow_natCast]
    exact mul_le_mul_of_nonneg_right hpow (zpow_pos two_pos t).le
  have hdiv : (m.log2 + 1 + e + 1 : ℤ).ediv 2 = (m.log2 + 1 + e + 1 : ℤ) / 2 := rfl
  rw [hdiv] at ht
  unfold target
  push_cast at hlog
  omega

/-- The mantissa moved to a smaller exponent is below the square of what the bound is there. -/
theorem shiftLeft_le_sq {m : ℕ} {e t : ℤ} {c : ℚ} (hshift : 2 * t ≤ e) (h : (m * 2 ^ e : ℚ) ≤ c ^ 2) :
    ((m <<< (e - 2 * t).toNat : ℕ) : ℚ) ≤ (c / 2 ^ t) ^ 2 := by
  have hsplit : (2 : ℚ) ^ e = 2 ^ (e - 2 * t).toNat * (2 ^ t) ^ 2 := by
    rw [← zpow_natCast, ← zpow_natCast, ← zpow_mul, ← zpow_add₀ two_ne_zero]
    congr 1
    push_cast
    omega
  rw [Nat.shiftLeft_eq, div_pow, le_div_iff₀ (by positivity)]
  push_cast
  rw [mul_assoc, ← hsplit]
  exact h

theorem Denotes.sqrt {x : Float} {a c : ℚ} (h : Denotes x a) (ha : 0 ≤ a) (hc : 0 ≤ c)
    (hle : a ≤ c ^ 2) (hbound : c < overflowBound) :
    ∃ b, Denotes x.sqrt b ∧ 0 ≤ b ∧ b ≤ snap c := by
  change ∃ b, Denotes (ofParts (UnpackedFloat.sqrt .binary64 (parts x))) b ∧ _
  rcases h.parts_cases with ⟨⟨s, hs⟩, -⟩ | ⟨s, m, e, hm, hs, -, -, rfl⟩ <;> rw [hs]
  · exact ⟨0, of_parts_zero (parts_ofParts_zero s), le_rfl, snap_nonneg hc⟩
  · cases s with
    | negative =>
      have hneg : ((Sign.negative.apply m : ℤ) : ℚ) * 2 ^ e < 0 :=
        mul_neg_of_neg_of_pos (by simpa [Sign.apply] using hm) (zpow_pos two_pos e)
      exact absurd ha (not_le.mpr hneg)
    | positive =>
      rw [Sign.apply, Int.cast_natCast] at hle
      unfold UnpackedFloat.sqrt sqrtCore
      dsimp only
      have hhalf : 2 * e.ediv 2 ≤ e := by
        rw [show e.ediv 2 = e / 2 from rfl]
        omega
      generalize ht : min (e.ediv 2)
        (Format.binary64.targetExponent ((totalExponent m e + 1).ediv 2)) = t
      have ht₁ : t ≤ e.ediv 2 := ht ▸ min_le_left _ _
      have ht₂ := ht ▸ min_le_right (e.ediv 2)
        (Format.binary64.targetExponent ((totalExponent m e + 1).ediv 2))
      have hpow : (0 : ℚ) < 2 ^ t := zpow_pos two_pos t
      have hM : 0 < m <<< (e - 2 * t).toNat := by
        rw [Nat.shiftLeft_eq]
        positivity
      -- At this exponent the integer root has all the bits that rounding needs.
      obtain ⟨y, hlies, hroot, hy⟩ := exists_lies_sqrt (div_nonneg hc hpow.le)
        (shiftLeft_le_sq (by omega) hle)
      rw [le_div_iff₀ hpow] at hy
      have hy' : 0 < y * 2 ^ t := by
        refine mul_pos (lt_of_lt_of_le (Nat.cast_pos.mpr ?_) hroot) hpow
        exact Nat.sqrt_pos.mpr hM
      rw [roundWithAccuracy_eq .positive hy' (by rwa [mul_div_cancel_right₀ _ hpow.ne'])
        (le_target_of_sqrt_le hm (by omega) ht₂ hroot)]
      exact ⟨_, Denotes.rounded .positive hy'.le (hy.trans_lt hbound), snap_nonneg hy'.le, snap_mono hy⟩

end Tween.Number
