import Tween.Proofs.Rounding

namespace Tween.Number

open Float.Model (UnpackedFloat Format)
open Float.Model.UnpackedFloat

def rounded (s : Sign) (x : ℚ) : Float :=
  ofParts (rounding s x)

theorem rounded_zero (s : Sign) : rounded s 0 = ofParts (.zero s) := by
  rw [rounded, rounding_zero]

/-- Below the bound, the nearest double has the parts that rounding leaves. -/
theorem parts_rounded (s : Sign) {x : ℚ} (hx : 0 ≤ x) (h : x < overflowBound) :
    parts (rounded s x) = rounding s x := by
  rcases hx.eq_or_lt with rfl | hpos
  · rw [rounded, rounding_zero, parts_ofParts_zero]
  · have hmag := mt (two_pow_le_magnitude_rounding_iff s hpos).mp (not_le.mpr h)
    rw [rounded]
    rcases rounding_cases s hpos with hzero | ⟨m, e, hm, hfin, hcan⟩
    · rw [hzero, parts_ofParts_zero]
    · rw [hfin] at hmag ⊢
      exact parts_ofParts_finite s hm hcan (not_lt.mp (mt (two_pow_le_magnitude_iff hcan).mpr hmag))

theorem rounded_of_le (s : Sign) {x : ℚ} (h : overflowBound ≤ x) :
    rounded s x = ofParts (.infinity s) := by
  have hpos := lt_of_lt_of_le overflowBound_pos h
  have hmag := (two_pow_le_magnitude_rounding_iff s hpos).mpr h
  rw [rounded]
  rcases rounding_cases s hpos with hzero | ⟨m, e, hm, hfin, hcan⟩
  · rw [hzero] at hmag
    exact absurd hmag (not_le.mpr (by positivity))
  · rw [hfin] at hmag ⊢
    exact ofParts_finite_of_lt s hm ((two_pow_le_magnitude_iff hcan).mp hmag)

theorem isFinite_rounded_iff (s : Sign) {x : ℚ} (hx : 0 ≤ x) :
    (rounded s x).isFinite = true ↔ x < overflowBound := by
  change (parts (rounded s x)).isFinite = true ↔ _
  constructor
  · intro h
    by_contra! hle
    rw [rounded_of_le s hle, parts_ofParts_infinity] at h
    cases h
  · intro h
    rw [parts_rounded s hx h]
    rcases hx.eq_or_lt with rfl | hpos
    · rw [rounding_zero]
      rfl
    · rcases rounding_cases s hpos with hzero | ⟨m, e, hm, hfin, -⟩
      · rw [hzero]
        rfl
      · rw [hfin]
        rfl

theorem isInf_of_isFinite {x : Float} (h : x.isFinite = true) : x.isInf = false := by
  change (parts x).isFinite = true at h
  change (parts x).isInf = false
  cases hparts : parts x with
  | infinity =>
    rw [hparts] at h
    cases h
  | _ => rfl

theorem isInf_rounded (s : Sign) {x : ℚ} (hx : 0 ≤ x) :
    (rounded s x).isInf = !(rounded s x).isFinite := by
  rcases lt_or_ge x overflowBound with h | h
  · have hfinite := (isFinite_rounded_iff s hx).mpr h
    rw [hfinite, isInf_of_isFinite hfinite]
    rfl
  · rw [rounded_of_le s h]
    cases s <;> rfl

def sign : UnpackedFloat → Sign
  | .notANumber => .positive
  | .infinity s => s
  | .zero s => s
  | .finite s _ _ _ => s

theorem sign_rounding (s : Sign) {x : ℚ} (hx : 0 ≤ x) : sign (rounding s x) = s := by
  rcases hx.eq_or_lt with rfl | hpos
  · rw [rounding_zero, sign]
  · rcases rounding_cases s hpos with h | ⟨m, e, hm, h, -⟩ <;> rw [h, sign]

theorem mul_zpow_lt_overflowBound {m : ℕ} {e : ℤ} (hm : m < 2 ^ 53) (he : e ≤ 971) :
    (m : ℚ) * 2 ^ e < overflowBound := by
  have hm' : (m : ℚ) ≤ (2 ^ 53 - 1 : ℕ) := by exact_mod_cast Nat.le_sub_one_of_lt hm
  have hexp : (2 : ℚ) ^ e ≤ 2 ^ (971 : ℤ) := zpow_le_zpow_right₀ one_le_two he
  have hle := mul_le_mul hm' hexp (zpow_pos two_pos e).le (Nat.cast_nonneg _)
  refine lt_of_le_of_lt hle ?_
  rw [← lt_div_iff₀ (zpow_pos two_pos _), overflowBound_div]
  exact lt_add_of_pos_right _ (by norm_num)

theorem rounded_of_lt (s : Sign) {m : ℕ} {e : ℤ} (hm : m < 2 ^ 53) (hleast : -1074 ≤ e)
    (he : e ≤ 971) :
    (rounded s (m * 2 ^ e)).isFinite = true ∧ sign (parts (rounded s (m * 2 ^ e))) = s ∧
      magnitude (parts (rounded s (m * 2 ^ e))) = m * 2 ^ e := by
  have hnonneg : (0 : ℚ) ≤ m * 2 ^ e := mul_nonneg (Nat.cast_nonneg m) (zpow_pos two_pos e).le
  have hlt := mul_zpow_lt_overflowBound hm he
  refine ⟨(isFinite_rounded_iff s hnonneg).mpr hlt, ?_, ?_⟩
  · rw [parts_rounded s hnonneg hlt, sign_rounding s hnonneg]
  · rw [parts_rounded s hnonneg hlt, magnitude_rounding_of_lt s hm hleast]

theorem finite_cases {x : Float} (hx : x.isFinite = true) :
    (∃ s, parts x = .zero s) ∨
      ∃ s m e hm, parts x = .finite s m e hm ∧ Canonical m e ∧ e ≤ 971 := by
  change (parts x).isFinite = true at hx
  cases h : parts x with
  | notANumber | infinity =>
    rw [h] at hx
    cases hx
  | zero s => exact .inl ⟨s, rfl⟩
  | finite s m e hm => exact .inr ⟨s, m, e, hm, rfl, canonical_of_parts h⟩

theorem magnitude_lt_overflowBound {x : Float} (hx : x.isFinite = true) :
    magnitude (parts x) < overflowBound := by
  rcases finite_cases hx with ⟨s, h⟩ | ⟨s, m, e, hm, h, hcan, he⟩ <;> rw [h]
  · exact overflowBound_pos
  · exact mul_zpow_lt_overflowBound hcan.lt he

theorem eq_rounded {x : Float} (hx : x.isFinite = true) :
    x = rounded (sign (parts x)) (magnitude (parts x)) := by
  have hparts := ofParts_parts x
  rcases finite_cases hx with ⟨s, h⟩ | ⟨s, m, e, hm, h, hcan, -⟩ <;> rw [h] at hparts ⊢
  · exact hparts.symm.trans (rounded_zero s).symm
  · rw [rounded, magnitude, sign, rounding_of_canonical s hm hcan]
    exact hparts.symm

theorem nearest_eq_rounded (negative : Bool) (num : ℕ) {den : ℕ} (hden : 0 < den) :
    nearest negative num den = rounded (signOf negative) (num / den) := by
  unfold nearest
  split
  next hnum =>
    rw [div_eq_rounding, zpow_zero, mul_one, mul_one, rounded]
    cases negative <;> rfl
  next hnum =>
    rw [Nat.eq_zero_of_not_pos hnum, Nat.cast_zero, zero_div, rounded_zero]

theorem ofInt_natCast {n : ℕ} (h : (n : ℚ) < overflowBound) :
    ofInt n = .ok (rounded .positive n) := by
  have hfinite := (isFinite_rounded_iff .positive (Nat.cast_nonneg n)).mpr h
  have hnearest : nearest (decide ((n : ℤ) < 0)) (n : ℤ).natAbs 1 = rounded .positive n := by
    rw [decide_eq_false (by omega), Int.natAbs_natCast, nearest_eq_rounded _ _ one_pos, Nat.cast_one,
      div_one]
    rfl
  rw [ofInt, hnearest, isInf_of_isFinite hfinite]
  rfl

theorem mul_eq_rounded {x y : Float} (hx : x.isFinite = true) (hy : y.isFinite = true) :
    x * y = rounded (sign (parts x) * sign (parts y))
      (magnitude (parts x) * magnitude (parts y)) := by
  change ofParts (UnpackedFloat.mul .binary64 (parts x) (parts y)) = _
  rcases finite_cases hx with ⟨s, h⟩ | ⟨s, m, e, hm, h, hcan, -⟩ <;>
    rcases finite_cases hy with ⟨s', h'⟩ | ⟨s', m', e', hm', h', hcan', -⟩ <;> rw [h, h']
  · rw [magnitude_zero, zero_mul, rounded_zero]
    rfl
  · rw [magnitude_zero, zero_mul, rounded_zero]
    rfl
  · rw [magnitude_zero, mul_zero, rounded_zero]
    rfl
  · -- A full mantissa makes a full product; two that are not full are of the least exponent.
    have hbits : 2 ^ 52 ≤ m * m' ∨ e + e' ≤ -1074 := by
      rcases hcan.full with hfull | hleast
      · exact .inl (le_trans hfull (Nat.le_mul_of_pos_right m hm'))
      · rcases hcan'.full with hfull' | hleast'
        · exact .inl (le_trans hfull' (Nat.le_mul_of_pos_left m' hm))
        · exact .inr (by omega)
    rw [mul_eq_rounding s s' hm hm' hbits]
    rfl

theorem div_eq_rounded {x y : Float} (hx : x.isFinite = true) (hy : y.isFinite = true)
    (hne : magnitude (parts y) ≠ 0) :
    x / y = rounded (sign (parts x) / sign (parts y))
      (magnitude (parts x) / magnitude (parts y)) := by
  change ofParts (UnpackedFloat.div .binary64 (parts x) (parts y)) = _
  rcases finite_cases hy with ⟨s', h'⟩ | ⟨s', m', e', hm', h', hcan', -⟩
  · rw [h'] at hne
    exact absurd rfl hne
  · rcases finite_cases hx with ⟨s, h⟩ | ⟨s, m, e, hm, h, hcan, -⟩ <;> rw [h, h']
    · rw [magnitude_zero, zero_div, rounded_zero]
      rfl
    · rw [div_eq_rounding]
      rfl

def rational (x : Float) : ℚ :=
  match sign (parts x) with
  | .negative => -magnitude (parts x)
  | .positive => magnitude (parts x)

theorem abs_magnitude_rounding_sub_le (s : Sign) {x : ℚ} (hx : 0 < x) {y : Float}
    (hy : y.isFinite = true) : |magnitude (rounding s x) - x| ≤ |rational y - x| := by
  have hpow : (0 : ℚ) < 2 ^ target x := zpow_pos two_pos _
  -- Multiples of the last place are no closer.
  have hgrid : ∀ k : ℤ, |magnitude (rounding s x) - x| ≤ |k * 2 ^ target x - x| := by
    intro k
    have h := abs_roundEven_sub_le (div_pos hx hpow).le k
    have h := mul_le_mul_of_nonneg_right h hpow.le
    rwa [← abs_of_pos hpow, ← abs_mul, ← abs_mul, abs_of_pos hpow, sub_mul, sub_mul,
      div_mul_cancel₀ _ hpow.ne', ← magnitude_rounding s hx] at h
  unfold rational
  rcases finite_cases hy with ⟨s', h⟩ | ⟨s', m, e, hm, h, hcan, -⟩ <;> rw [h]
  · have hzero := hgrid 0
    rw [Int.cast_zero, zero_mul] at hzero
    cases s' <;> simpa [sign] using hzero
  · rw [magnitude_finite]
    have hpos : (0 : ℚ) < m * 2 ^ e := mul_pos (Nat.cast_pos.mpr hm) (zpow_pos two_pos e)
    rcases le_or_gt (target x) e with hle | hlt
    · have hmult : (m : ℚ) * 2 ^ e = (m * 2 ^ (e - target x).toNat : ℕ) * 2 ^ target x := by
        push_cast
        rw [mul_assoc, ← zpow_natCast, ← zpow_add₀ two_ne_zero, Int.toNat_of_nonneg (by omega),
          sub_add_cancel]
      rw [hmult]
      cases s' with
      | positive => exact_mod_cast hgrid (m * 2 ^ (e - target x).toNat : ℕ)
      | negative =>
        have h := hgrid (-(m * 2 ^ (e - target x).toNat : ℕ))
        rw [Int.cast_neg, neg_mul] at h
        exact_mod_cast h
    · -- A number of fewer bits is further off than the first one of that many bits.
      have hleast := hcan.least
      have hfull := two_pow_le_div_target hx (by omega)
      rw [le_div_iff₀ hpow] at hfull
      have hless : (m : ℚ) * 2 ^ e ≤ 2 ^ 52 * 2 ^ target x := by
        have hm' : (m : ℚ) ≤ 2 ^ 53 := by exact_mod_cast hcan.lt.le
        have hexp : (2 : ℚ) ^ (e + 1) ≤ 2 ^ target x := zpow_le_zpow_right₀ one_le_two hlt
        rw [zpow_add_one₀ two_ne_zero] at hexp
        have := mul_le_mul_of_nonneg_right hm' (zpow_pos (two_pos (α := ℚ)) e).le
        linarith
      have hfirst := hgrid (2 ^ 52)
      rw [Int.cast_pow, Int.cast_ofNat, abs_of_nonpos (sub_nonpos.mpr hfull)] at hfirst
      refine hfirst.trans (le_abs.mpr (.inr ?_))
      cases s' <;> simp only [sign] <;> linarith

def IsDouble (n : ℤ) : Prop :=
  ∃ x : Float, x.isFinite = true ∧ rational x = n

theorem rational_rounded {x : ℚ} (hx : 0 ≤ x) (h : x < overflowBound) :
    rational (rounded .positive x) = magnitude (rounding .positive x) := by
  rw [rational, parts_rounded .positive hx h, sign_rounding .positive hx]

theorem beq_self_of_isFinite {x : Float} (hx : x.isFinite = true) : (x == x) = true := by
  change ((parts x).compare (parts x) == some .eq) = true
  rcases finite_cases hx with ⟨s, h⟩ | ⟨s, m, e, hm, h, -⟩ <;> rw [h]
  · rfl
  · cases s <;> simp [UnpackedFloat.compare]

/-- The whole part of a finite double is that of its magnitude, with its sign. -/
theorem truncate_eq {x : Float} (hx : x.isFinite = true) :
    truncate x = .ok ((sign (parts x)).apply (⌊magnitude (parts x)⌋₊ : ℕ)) := by
  unfold truncate
  rcases finite_cases hx with ⟨s, h⟩ | ⟨s, m, e, hm, h, -⟩ <;> rw [h]
  · cases s <;> simp [sign, Sign.apply]
  · have hfloor : ⌊magnitude (.finite s m e hm)⌋₊ =
        if 0 ≤ e then m <<< e.toNat else m >>> (-e).toNat := by
      rw [magnitude_finite]
      split
      next he =>
        obtain ⟨k, rfl⟩ := Int.eq_ofNat_of_zero_le he
        rw [Int.toNat_natCast, Nat.shiftLeft_eq, zpow_natCast]
        exact_mod_cast Nat.floor_natCast (R := ℚ) (m * 2 ^ k)
      next he =>
        obtain ⟨k, rfl⟩ : ∃ k : ℕ, e = -k := ⟨(-e).toNat, by omega⟩
        rw [neg_neg, Int.toNat_natCast, Nat.shiftRight_eq_div_pow, zpow_neg, zpow_natCast,
          ← div_eq_mul_inv]
        exact_mod_cast Nat.floor_div_natCast (K := ℚ) (m : ℚ) (2 ^ k)
    rw [hfloor, sign]
    dsimp only
    split <;> rfl

theorem lt_iff (x y : Float) : x < y ↔ (parts x).compare (parts y) = some .lt := by
  change decide (((parts x).compare (parts y) == some .lt) = true) = true ↔ _
  rw [decide_eq_true_iff, beq_iff_eq]

theorem le_iff (x y : Float) : x ≤ y ↔ (parts x).le (parts y) = true := by
  change decide ((parts x).le (parts y) = true) = true ↔ _
  rw [decide_eq_true_iff]

theorem lt_zero_iff (x : Float) : x < 0.0 ↔ (parts x).compare (.zero .positive) = some .lt :=
  lt_iff x 0.0

theorem truncate_of_not_lt_zero {x : Float} (hx : x.isFinite = true) (h : ¬x < 0.0) :
    truncate x = .ok (⌊magnitude (parts x)⌋₊ : ℕ) := by
  rw [truncate_eq hx]
  rw [lt_zero_iff] at h
  rcases finite_cases hx with ⟨s, hparts⟩ | ⟨s, m, e, hm, hparts, -⟩ <;> rw [hparts] at h ⊢
  · cases s <;> simp [sign, Sign.apply]
  · cases s with
    | positive => rfl
    | negative => exact absurd rfl h

theorem not_rounded_lt_zero {x : ℚ} (hx : 0 ≤ x) : ¬rounded .positive x < 0.0 := by
  rw [lt_zero_iff]
  rcases lt_or_ge x overflowBound with h | h
  · rw [parts_rounded .positive hx h]
    rcases hx.eq_or_lt with rfl | hpos
    · rw [rounding_zero]
      decide
    · rcases rounding_cases .positive hpos with hzero | ⟨m, e, hm, hfin, -⟩
      · rw [hzero]
        decide
      · rw [hfin]
        simp [UnpackedFloat.compare]
  · rw [rounded_of_le .positive h, parts_ofParts_infinity]
    decide

/-- A short mantissa with an exponent in range makes a whole number that is a double. -/
theorem isDouble_of_lt {m k : ℕ} (hm : m < 2 ^ 53) (hk : k ≤ 971) : IsDouble (m * 2 ^ k : ℕ) := by
  have h := rounded_of_lt .positive hm (e := k) (by omega) (by omega)
  refine ⟨_, h.1, ?_⟩
  rw [rational, h.2.1, h.2.2, zpow_natCast]
  push_cast
  rfl

theorem isDouble_floor {x : Float} (hx : x.isFinite = true) :
    IsDouble (⌊magnitude (parts x)⌋₊ : ℕ) := by
  rcases finite_cases hx with ⟨s, h⟩ | ⟨s, m, e, hm, h, hcan, he⟩ <;> rw [h]
  · rw [magnitude_zero, Nat.floor_zero]
    exact isDouble_of_lt (m := 0) (k := 0) (by norm_num) (by norm_num)
  · rw [magnitude_finite]
    rcases le_or_gt 0 e with hnonneg | hneg
    · obtain ⟨k, rfl⟩ := Int.eq_ofNat_of_zero_le hnonneg
      have hfloor : ⌊(m : ℚ) * 2 ^ (k : ℤ)⌋₊ = m * 2 ^ k := by
        rw [zpow_natCast]
        exact_mod_cast Nat.floor_natCast (R := ℚ) (m * 2 ^ k)
      rw [hfloor]
      exact isDouble_of_lt hcan.lt (by omega)
    · have hle : (m : ℚ) * 2 ^ e ≤ m := by
        refine mul_le_of_le_one_right (Nat.cast_nonneg m) ?_
        exact zpow_le_one_of_nonpos₀ one_le_two hneg.le
      have hfloor : ⌊(m : ℚ) * 2 ^ e⌋₊ < 2 ^ 53 :=
        lt_of_le_of_lt (Nat.floor_le_of_le hle) hcan.lt
      simpa using isDouble_of_lt hfloor (k := 0) (by norm_num)

theorem exists_magnitude_rounding_eq (s : Sign) (n : ℕ) :
    ∃ r : ℕ, magnitude (rounding s n) = r := by
  by_cases hn : n < 2 ^ 53
  · have h := magnitude_rounding_of_lt s hn (e := 0) (by norm_num)
    rw [zpow_zero, mul_one] at h
    exact ⟨n, h⟩
  · have hpos : (0 : ℚ) < n := Nat.cast_pos.mpr (by omega)
    have htarget : 0 ≤ target n := by
      have hlog : 53 ≤ Int.log 2 (n : ℚ) := by
        rw [← Int.zpow_le_iff_le_log one_lt_two hpos]
        exact_mod_cast not_lt.mp hn
      unfold target
      omega
    refine ⟨roundEven (n / 2 ^ target (n : ℚ)) * 2 ^ (target (n : ℚ)).toNat, ?_⟩
    rw [magnitude_rounding s hpos]
    push_cast
    rw [← zpow_natCast, Int.toNat_of_nonneg htarget]

theorem isDouble_natCast_iff {n : ℕ} :
    IsDouble n ↔ (n : ℚ) < overflowBound ∧ magnitude (rounding .positive n) = n := by
  constructor
  · rintro ⟨x, hx, h⟩
    rw [rational] at h
    rcases finite_cases hx with ⟨s, hparts⟩ | ⟨s, m, e, hm, hparts, hcan, he⟩ <;>
      rw [hparts] at h
    · have hn : (n : ℚ) = 0 := by
        cases s <;> simpa [sign, eq_comm] using h
      rw [hn, rounding_zero]
      exact ⟨overflowBound_pos, rfl⟩
    · have hpos : (0 : ℚ) < m * 2 ^ e := mul_pos (Nat.cast_pos.mpr hm) (zpow_pos two_pos e)
      have hn : (n : ℚ) = m * 2 ^ e := by
        cases s with
        | positive => simpa [sign, eq_comm] using h
        | negative =>
          have : (0 : ℚ) ≤ n := Nat.cast_nonneg n
          simp only [sign, magnitude_finite, Int.cast_natCast] at h
          linarith
      rw [hn, rounding_of_canonical .positive hm hcan]
      exact ⟨mul_zpow_lt_overflowBound hcan.lt he, rfl⟩
  · rintro ⟨hlt, hround⟩
    have hnonneg : (0 : ℚ) ≤ n := Nat.cast_nonneg n
    refine ⟨rounded .positive n, (isFinite_rounded_iff .positive hnonneg).mpr hlt, ?_⟩
    rw [rational_rounded hnonneg hlt, hround, Int.cast_natCast]

end Tween.Number
