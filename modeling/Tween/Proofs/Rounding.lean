import Mathlib
import Tween.Proofs.Packing

namespace Tween.Number

open Float.Model (UnpackedFloat Format totalExponent)
open Float.Model.UnpackedFloat

/-- Whether a number lies where the mantissa and its two further bits say. -/
def Lies : ExtendedMantissa → ℚ → Prop
  | ⟨m, false, false⟩, x => x = m
  | ⟨m, false, true⟩, x => m < x ∧ x < m + 1 / 2
  | ⟨m, true, false⟩, x => x = m + 1 / 2
  | ⟨m, true, true⟩, x => m + 1 / 2 < x ∧ x < m + 1

def roundEven (x : ℚ) : ℕ :=
  let n := ⌊x⌋₊
  if x < n + 1 / 2 then n else if x = n + 1 / 2 then n + n % 2 else n + 1

theorem lies_natCast (n : ℕ) : Lies ⟨n, false, false⟩ n := rfl

theorem Lies.floor {em : ExtendedMantissa} {x : ℚ} (h : Lies em x) :
    (em.mantissa : ℚ) ≤ x ∧ x < em.mantissa + 1 := by
  obtain ⟨m, r, s⟩ := em
  cases r <;> cases s <;> simp only [Lies] at h ⊢ <;> constructor <;> linarith

theorem Lies.floor_eq {em : ExtendedMantissa} {x : ℚ} (h : Lies em x) : ⌊x⌋₊ = em.mantissa :=
  (Nat.floor_eq_iff (le_trans (Nat.cast_nonneg _) h.floor.1)).mpr h.floor

theorem Lies.roundedMantissa {em : ExtendedMantissa} {x : ℚ} (h : Lies em x) :
    em.roundedMantissa = roundEven x := by
  have hfloor := h.floor_eq
  obtain ⟨m, r, s⟩ := em
  dsimp only at hfloor
  unfold roundEven
  dsimp only
  rw [hfloor]
  cases r <;> cases s <;> simp only [Lies] at h
  · rw [if_pos (by linarith)]
    rfl
  · rw [if_pos (by linarith)]
    rfl
  · rw [if_neg (by linarith), if_pos (by linarith)]
    rfl
  · rw [if_neg (by linarith), if_neg (by linarith)]
    rfl

theorem Lies.shiftRightOne {em : ExtendedMantissa} {x : ℚ} (h : Lies em x) :
    Lies em.shiftRightOne (x / 2) := by
  obtain ⟨m, r, s⟩ := em
  have hsplit : (m : ℚ) = 2 * (m / 2 : ℕ) + (m % 2 : ℕ) := by
    exact_mod_cast (Nat.div_add_mod m 2).symm
  rcases Nat.mod_two_eq_zero_or_one m with hbit | hbit <;> rw [hbit] at hsplit <;>
    push_cast at hsplit <;> cases r <;> cases s <;>
      simp only [Lies, ExtendedMantissa.shiftRightOne, hbit, bne_self_eq_false, Bool.or_false,
        Bool.or_true, Bool.or_self, show ((1 : ℕ) != 0) = true from rfl] at h ⊢ <;>
      first | linarith | (constructor <;> linarith)

theorem Lies.shiftRight {em : ExtendedMantissa} {x : ℚ} (h : Lies em x) (k : ℕ) :
    Lies (em >>> k) (x / 2 ^ k) := by
  change Lies (k.repeat ExtendedMantissa.shiftRightOne em) _
  induction k with
  | zero => simpa [Nat.repeat] using h
  | succ k ih =>
    rw [Nat.repeat, pow_succ, ← div_div]
    exact ih.shiftRightOne

theorem lies_div (a : ℕ) {b : ℕ} (hb : 0 < b) :
    Lies (.ofMantissaAndAccuracy (a / b) (accuracyOfFraction (a % b) b)) ((a : ℚ) / b) := by
  have hb' : (0 : ℚ) < b := Nat.cast_pos.mpr hb
  have hsplit : (a : ℚ) = b * (a / b : ℕ) + (a % b : ℕ) := by
    exact_mod_cast (Nat.div_add_mod a b).symm
  have hquot : (a : ℚ) / b = (a / b : ℕ) + (a % b : ℕ) / (b : ℚ) := by
    rw [div_eq_iff hb'.ne', add_mul, div_mul_cancel₀ _ hb'.ne']
    linarith
  have hlt : ((a % b : ℕ) : ℚ) / b < 1 := by
    rw [div_lt_one hb']
    exact_mod_cast Nat.mod_lt a hb
  generalize a % b = r at *
  rw [hquot]
  unfold accuracyOfFraction
  split
  next hr => simp [ExtendedMantissa.ofMantissaAndAccuracy, Lies, hr]
  next hr =>
    have hr' : (0 : ℚ) < r := Nat.cast_pos.mpr (Nat.pos_of_ne_zero hr)
    have hpos : (0 : ℚ) < r / b := div_pos hr' hb'
    -- Which side of the half it is on shows when the remainder is doubled.
    rcases hcmp : compare (2 * r) b with _ | _ | _
    · have h : (2 * r : ℚ) < b := by exact_mod_cast Nat.compare_eq_lt.mp hcmp
      have : (r : ℚ) / b < 1 / 2 := by rw [div_lt_div_iff₀ hb' two_pos]; linarith
      simp only [ExtendedMantissa.ofMantissaAndAccuracy, Lies]
      constructor <;> linarith
    · have h : (2 * r : ℚ) = b := by exact_mod_cast Nat.compare_eq_eq.mp hcmp
      have : (r : ℚ) / b = 1 / 2 := by rw [div_eq_div_iff hb'.ne' two_ne_zero]; linarith
      simp only [ExtendedMantissa.ofMantissaAndAccuracy, Lies]
      linarith
    · have h : (b : ℚ) < 2 * r := by exact_mod_cast Nat.compare_eq_gt.mp hcmp
      have : 1 / 2 < (r : ℚ) / b := by rw [div_lt_div_iff₀ two_pos hb']; linarith
      simp only [ExtendedMantissa.ofMantissaAndAccuracy, Lies]
      constructor <;> linarith

def target (x : ℚ) : ℤ :=
  max (Int.log 2 x - 52) (-1074)

theorem log_eq_of_le {m : ℕ} {e : ℤ} {x : ℚ} (hm : 0 < m) (hle : (m : ℚ) * 2 ^ e ≤ x)
    (hlt : x < (m + 1) * 2 ^ e) : Int.log 2 x = m.log2 + e := by
  have hpow : (0 : ℚ) < 2 ^ e := zpow_pos two_pos e
  have hx : 0 < x := lt_of_lt_of_le (mul_pos (Nat.cast_pos.mpr hm) hpow) hle
  have hlow : (m.log2 : ℤ) + e ≤ Int.log 2 x := by
    rw [← Int.zpow_le_iff_le_log one_lt_two hx, Nat.cast_ofNat, zpow_add₀ two_ne_zero, zpow_natCast]
    refine le_trans (mul_le_mul_of_nonneg_right ?_ hpow.le) hle
    exact_mod_cast Nat.log2_self_le hm.ne'
  have hhigh : Int.log 2 x < m.log2 + 1 + e := by
    rw [← Int.lt_zpow_iff_log_lt one_lt_two hx, Nat.cast_ofNat, zpow_add₀ two_ne_zero]
    refine lt_of_lt_of_le hlt (mul_le_mul_of_nonneg_right ?_ hpow.le)
    exact_mod_cast Nat.lt_log2_self (n := m)
  omega

/-- The exponent that a mantissa asks for is that of the number it begins, if none of the bits
that count have been dropped before. -/
theorem targetExponent_eq {m : ℕ} {e : ℤ} {x : ℚ} (hx : 0 < x) (hm : (m : ℚ) ≤ x / 2 ^ e)
    (hm' : x / 2 ^ e < m + 1) (he : e ≤ target x) :
    Format.binary64.targetExponent (totalExponent m e) = target x := by
  have hpow : (0 : ℚ) < 2 ^ e := zpow_pos two_pos e
  rw [le_div_iff₀ hpow] at hm
  rw [div_lt_iff₀ hpow] at hm'
  have hmin : Format.binary64.minExponent = -1074 := by decide
  simp only [Format.targetExponent, totalExponent, hmin, Format.mantissaBits, target] at he ⊢
  rcases Nat.eq_zero_or_pos m with rfl | hpos
  · -- Nothing is left of the mantissa, so the exponent is the least one.
    have hlog : Int.log 2 x < e := (Int.lt_zpow_iff_log_lt one_lt_two hx).mp (by simpa using hm')
    simp only [Nat.log2_zero]
    omega
  · have hlog := log_eq_of_le hpos hm hm'
    omega

theorem shiftToTargetExponent_of_lies {m : ℕ} {e : ℤ} {a : Accuracy} {x : ℚ} (hx : 0 < x)
    (h : Lies (.ofMantissaAndAccuracy m a) (x / 2 ^ e)) (he : e ≤ target x) :
    (shiftToTargetExponent .binary64 m e a).2 = target x ∧
      Lies (shiftToTargetExponent .binary64 m e a).1 (x / 2 ^ target x) := by
  have hfloor := h.floor
  rw [mantissa_ofMantissaAndAccuracy] at hfloor
  rw [shiftToTargetExponent_eq, targetExponent_eq hx hfloor.1 hfloor.2 he]
  have hsub : e + (target x - e).toNat = target x := by omega
  refine ⟨hsub, ?_⟩
  have hshift := h.shiftRight (target x - e).toNat
  rwa [div_div, ← zpow_natCast, ← zpow_add₀ two_ne_zero, hsub] at hshift

theorem le_roundEven (x : ℚ) : ⌊x⌋₊ ≤ roundEven x := by
  unfold roundEven
  dsimp only
  split
  · exact le_rfl
  · split <;> omega

theorem roundEven_le (x : ℚ) : roundEven x ≤ ⌊x⌋₊ + 1 := by
  unfold roundEven
  dsimp only
  split
  · omega
  · split <;> omega

theorem roundEven_natCast (n : ℕ) : roundEven n = n := by
  simp [roundEven]

theorem roundEven_le_of_lt {n : ℕ} {x : ℚ} (hx : 0 ≤ x) (h : x < n + 1 / 2) : roundEven x ≤ n := by
  have hfloor : ⌊x⌋₊ < n + 1 := by
    rw [Nat.floor_lt hx]
    push_cast
    linarith
  have hle := roundEven_le x
  rcases Nat.lt_succ_iff_lt_or_eq.mp hfloor with hlt | rfl
  · omega
  · rw [roundEven, if_pos h]

theorem roundEven_half (n : ℕ) : roundEven (n + 1 / 2) = n + n % 2 := by
  have hfloor : ⌊(n : ℚ) + 1 / 2⌋₊ = n := by
    rw [Nat.floor_eq_iff (by positivity)]
    constructor <;> linarith
  rw [roundEven, hfloor, if_neg (lt_irrefl _), if_pos rfl]

theorem abs_roundEven_sub_le {x : ℚ} (hx : 0 ≤ x) (k : ℤ) : |(roundEven x : ℚ) - x| ≤ |k - x| := by
  obtain ⟨n, hn⟩ : ∃ n, ⌊x⌋₊ = n := ⟨_, rfl⟩
  have hfloor : (n : ℚ) ≤ x := hn ▸ Nat.floor_le hx
  have hceil : x < n + 1 := hn ▸ Nat.lt_floor_add_one x
  have hround : |(roundEven x : ℚ) - x| ≤ min (x - n) (n + 1 - x) := by
    unfold roundEven
    rw [hn]
    dsimp only
    rw [le_min_iff, abs_le, abs_le]
    rcases lt_trichotomy x (n + 1 / 2) with h | h | h
    · rw [if_pos h]
      refine ⟨⟨?_, ?_⟩, ?_, ?_⟩ <;> linarith
    · rw [if_neg h.not_lt, if_pos h]
      rcases Nat.mod_two_eq_zero_or_one n with hbit | hbit <;> rw [hbit] <;> push_cast <;>
        refine ⟨⟨?_, ?_⟩, ?_, ?_⟩ <;> linarith
    · rw [if_neg h.not_gt, if_neg h.ne']
      push_cast
      refine ⟨⟨?_, ?_⟩, ?_, ?_⟩ <;> linarith
  refine hround.trans ?_
  rcases lt_or_ge k (n + 1) with h | h
  · have hk : (k : ℚ) ≤ n := by exact_mod_cast Int.lt_add_one_iff.mp h
    exact (min_le_left _ _).trans (le_abs.mpr (.inr (by linarith)))
  · have hk : (n : ℚ) + 1 ≤ k := by exact_mod_cast h
    exact (min_le_right _ _).trans (le_abs.mpr (.inl (by linarith)))

theorem div_target_lt (x : ℚ) : x / 2 ^ target x < 2 ^ 53 := by
  rw [div_lt_iff₀ (zpow_pos two_pos _), ← zpow_natCast, ← zpow_add₀ two_ne_zero]
  refine lt_of_lt_of_le (Int.lt_zpow_succ_log_self one_lt_two x) ?_
  rw [Nat.cast_ofNat]
  apply zpow_le_zpow_right₀ one_le_two
  unfold target
  omega

theorem roundEven_target_le (x : ℚ) (hx : 0 < x) : roundEven (x / 2 ^ target x) ≤ 2 ^ 53 := by
  have hfloor : ⌊x / 2 ^ target x⌋₊ < 2 ^ 53 := by
    rw [Nat.floor_lt (div_nonneg hx.le (zpow_pos two_pos _).le)]
    exact_mod_cast div_target_lt x
  have := roundEven_le (x / 2 ^ target x)
  omega

/-- A mantissa that rounding has left, as the parts of a double: the one that has become too long
is a power of two. -/
def carried (s : Sign) (n : ℕ) (e : ℤ) : UnpackedFloat :=
  if h : n = 0 then .zero s
  else if n < 2 ^ 53 then .finite s n e (Nat.pos_of_ne_zero h)
  else .finite s (2 ^ 52) (e + 1) (Nat.two_pow_pos 52)

/-- The parts of the double nearest to `x`, if no exponent is too large. -/
def rounding (s : Sign) (x : ℚ) : UnpackedFloat :=
  carried s (roundEven (x / 2 ^ target x)) (target x)

theorem shiftToTargetExponent_of_lt {n : ℕ} {e : ℤ} (hn : n < 2 ^ 53) (he : -1074 ≤ e) :
    shiftToTargetExponent .binary64 n e .exact = (⟨n, false, false⟩, e) := by
  have hmin : Format.binary64.minExponent = -1074 := by decide
  have hlog : n.log2 ≤ 52 := by
    rcases Nat.eq_zero_or_pos n with rfl | hpos
    · decide
    · exact Nat.le_of_lt_succ ((Nat.log2_lt hpos.ne').mpr hn)
  have hshift : (Format.binary64.targetExponent (totalExponent n e) - e).toNat = 0 := by
    simp only [Format.targetExponent, totalExponent, hmin, Format.mantissaBits]
    omega
  rw [shiftToTargetExponent_eq, hshift, Nat.cast_zero, add_zero]
  rfl

theorem shiftToTargetExponent_two_pow {e : ℤ} (he : -1074 ≤ e) :
    shiftToTargetExponent .binary64 (2 ^ 53) e .exact = (⟨2 ^ 52, false, false⟩, e + 1) := by
  have hmin : Format.binary64.minExponent = -1074 := by decide
  have hshift : (Format.binary64.targetExponent (totalExponent (2 ^ 53) e) - e).toNat = 1 := by
    simp only [Format.targetExponent, totalExponent, hmin, Format.mantissaBits, Nat.log2_two_pow]
    omega
  rw [shiftToTargetExponent_eq, hshift]
  rfl

theorem roundWithAccuracy_eq {m : ℕ} {e : ℤ} {a : Accuracy} {x : ℚ} (s : Sign) (hx : 0 < x)
    (h : Lies (.ofMantissaAndAccuracy m a) (x / 2 ^ e)) (he : e ≤ target x) :
    roundWithAccuracy .binary64 s m e a = rounding s x := by
  obtain ⟨hexp, hlies⟩ := shiftToTargetExponent_of_lies hx h he
  have hleast : -1074 ≤ target x := le_max_right _ _
  have hle := roundEven_target_le x hx
  unfold roundWithAccuracy rounding carried
  dsimp only
  rw [hexp, hlies.roundedMantissa]
  generalize roundEven (x / 2 ^ target x) = n at hle
  rcases hle.lt_or_eq with hlt | rfl
  · rw [shiftToTargetExponent_of_lt hlt hleast]
    simp only [hlt, if_true]
  · rw [shiftToTargetExponent_two_pow hleast]
    rfl

theorem rounding_zero (s : Sign) : rounding s 0 = .zero s := by
  rw [rounding, zero_div, show roundEven 0 = 0 from by exact_mod_cast roundEven_natCast 0]
  rfl

theorem target_mul_zpow {m : ℕ} (hm : 0 < m) (e : ℤ) :
    target ((m : ℚ) * 2 ^ e) = max (m.log2 + e - 52) (-1074) := by
  have hpow : (0 : ℚ) < 2 ^ e := zpow_pos two_pos e
  rw [target, log_eq_of_le hm le_rfl (mul_lt_mul_of_pos_right (by linarith) hpow)]

theorem target_of_canonical {m : ℕ} {e : ℤ} (hm : 0 < m) (h : Canonical m e) :
    target ((m : ℚ) * 2 ^ e) = e := by
  have hlog : m.log2 < 53 := (Nat.log2_lt hm.ne').mpr h.lt
  have hleast := h.least
  rw [target_mul_zpow hm]
  rcases h.full with hfull | rfl
  · have : 52 ≤ m.log2 := (Nat.le_log2 hm.ne').mpr hfull
    omega
  · omega

theorem rounding_of_canonical {m : ℕ} {e : ℤ} (s : Sign) (hm : 0 < m) (h : Canonical m e) :
    rounding s ((m : ℚ) * 2 ^ e) = .finite s m e hm := by
  rw [rounding, target_of_canonical hm h, mul_div_cancel_right₀ _ (zpow_pos two_pos e).ne',
    roundEven_natCast, carried, dif_neg hm.ne', if_pos h.lt]

theorem two_pow_le_div_target {x : ℚ} (hx : 0 < x) (h : target x ≠ -1074) :
    2 ^ 52 ≤ x / 2 ^ target x := by
  have htarget : 52 + target x = Int.log 2 x := by
    unfold target at h ⊢
    omega
  rw [le_div_iff₀ (zpow_pos two_pos _), ← zpow_natCast, ← zpow_add₀ two_ne_zero, Nat.cast_ofNat,
    htarget]
  exact_mod_cast Int.zpow_log_le_self one_lt_two hx

theorem two_pow_le_roundEven {x : ℚ} (hx : 0 < x) (h : target x ≠ -1074) :
    2 ^ 52 ≤ roundEven (x / 2 ^ target x) := by
  refine le_trans (Nat.le_floor ?_) (le_roundEven _)
  exact_mod_cast two_pow_le_div_target hx h

/-- What rounding leaves is zero or a double, unless its exponent is too large. -/
theorem rounding_cases (s : Sign) {x : ℚ} (hx : 0 < x) :
    rounding s x = .zero s ∨ ∃ m e hm, rounding s x = .finite s m e hm ∧ Canonical m e := by
  have hleast : -1074 ≤ target x := le_max_right _ _
  have hfull := two_pow_le_roundEven hx
  unfold rounding carried
  split
  next => exact .inl rfl
  next hn =>
    refine .inr ?_
    split
    next hlt =>
      exact ⟨_, _, Nat.pos_of_ne_zero hn, rfl, hlt, hleast, (Decidable.em _).symm.imp_left hfull⟩
    next => exact ⟨_, _, Nat.two_pow_pos 52, rfl, by omega, by omega, .inl le_rfl⟩

def magnitude : UnpackedFloat → ℚ
  | .finite _ m e _ => m * 2 ^ e
  | _ => 0

@[simp] theorem magnitude_zero (s : Sign) : magnitude (.zero s) = 0 := rfl

@[simp] theorem magnitude_finite (s : Sign) (m : ℕ) (e : ℤ) (hm : 0 < m) :
    magnitude (.finite s m e hm) = m * 2 ^ e := rfl

theorem magnitude_nonneg (x : UnpackedFloat) : 0 ≤ magnitude x := by
  cases x with
  | finite s m e hm => exact mul_nonneg (Nat.cast_nonneg m) (zpow_pos two_pos e).le
  | _ => exact le_rfl

theorem magnitude_rounding (s : Sign) {x : ℚ} (hx : 0 < x) :
    magnitude (rounding s x) = roundEven (x / 2 ^ target x) * 2 ^ target x := by
  have hle := roundEven_target_le x hx
  unfold rounding carried
  generalize roundEven (x / 2 ^ target x) = n at hle
  split
  next hn => simp [magnitude, hn]
  next hn =>
    split
    · rfl
    next hlt =>
      obtain rfl : n = 2 ^ 53 := by omega
      rw [magnitude, zpow_add₀ two_ne_zero]
      push_cast
      ring

theorem magnitude_rounding_of_lt (s : Sign) {m : ℕ} {e : ℤ} (hm : m < 2 ^ 53) (he : -1074 ≤ e) :
    magnitude (rounding s (m * 2 ^ e)) = m * 2 ^ e := by
  rcases Nat.eq_zero_or_pos m with rfl | hpos
  · rw [Nat.cast_zero, zero_mul, rounding_zero, magnitude_zero]
  · have htarget : target ((m : ℚ) * 2 ^ e) ≤ e := by
      have := (Nat.log2_lt hpos.ne').mpr hm
      rw [target_mul_zpow hpos]
      omega
    have hshift : ((m : ℚ) * 2 ^ e) / 2 ^ target ((m : ℚ) * 2 ^ e) =
        (m * 2 ^ (e - target ((m : ℚ) * 2 ^ e)).toNat : ℕ) := by
      rw [mul_div_assoc, ← zpow_sub₀ two_ne_zero]
      push_cast
      rw [← zpow_natCast, Int.toNat_of_nonneg (by omega)]
    rw [magnitude_rounding s (mul_pos (Nat.cast_pos.mpr hpos) (zpow_pos two_pos e)), hshift,
      roundEven_natCast, ← hshift, div_mul_cancel₀ _ (zpow_pos two_pos _).ne']

theorem roundEven_mono {x y : ℚ} (h : x ≤ y) : roundEven x ≤ roundEven y := by
  rcases (Nat.floor_le_floor h).lt_or_eq with hlt | heq
  · have := roundEven_le x
    have := le_roundEven y
    omega
  · unfold roundEven
    dsimp only
    rw [heq]
    generalize (⌊y⌋₊ : ℚ) + 1 / 2 = half
    rcases lt_trichotomy x half with hx | hx | hx
    · rw [if_pos hx]
      split_ifs <;> omega
    · have hy : ¬y < half := not_lt.mpr (hx ▸ h)
      rw [if_neg hx.not_lt, if_pos hx, if_neg hy]
      split_ifs <;> omega
    · have hy : half < y := lt_of_lt_of_le hx h
      rw [if_neg hx.not_gt, if_neg hx.ne', if_neg hy.not_gt, if_neg hy.ne']

theorem magnitude_rounding_mono (s s' : Sign) {x y : ℚ} (hx : 0 < x) (h : x ≤ y) :
    magnitude (rounding s x) ≤ magnitude (rounding s' y) := by
  have hy := lt_of_lt_of_le hx h
  rw [magnitude_rounding s hx, magnitude_rounding s' hy]
  have htarget : target x ≤ target y := by
    have := Int.log_mono_right (b := 2) hx h
    unfold target
    omega
  rcases htarget.eq_or_lt with heq | hlt
  · rw [heq]
    refine mul_le_mul_of_nonneg_right ?_ (zpow_pos two_pos _).le
    exact_mod_cast roundEven_mono (div_le_div_of_nonneg_right h (zpow_pos two_pos _).le)
  · -- A larger exponent begins where the smaller one ends.
    have hleast : -1074 ≤ target x := le_max_right _ _
    have hfull := two_pow_le_roundEven hy (by omega)
    calc (roundEven (x / 2 ^ target x) : ℚ) * 2 ^ target x
        ≤ 2 ^ 53 * 2 ^ target x := by
          refine mul_le_mul_of_nonneg_right ?_ (zpow_pos two_pos _).le
          exact_mod_cast roundEven_target_le x hx
      _ = 2 ^ 52 * 2 ^ (target x + 1) := by rw [zpow_add₀ two_ne_zero]; ring
      _ ≤ 2 ^ 52 * 2 ^ target y := by
          refine mul_le_mul_of_nonneg_left ?_ (by norm_num)
          exact zpow_le_zpow_right₀ one_le_two hlt
      _ ≤ roundEven (y / 2 ^ target y) * 2 ^ target y := by
          refine mul_le_mul_of_nonneg_right ?_ (zpow_pos two_pos _).le
          exact_mod_cast hfull

theorem div_eq_rounding (s s' : Sign) {m m' : ℕ} (e e' : ℤ) (hm : 0 < m) (hm' : 0 < m') :
    UnpackedFloat.div .binary64 (.finite s m e hm) (.finite s' m' e' hm') =
      rounding (s / s') (m * 2 ^ e / (m' * 2 ^ e')) := by
  have hpos : (0 : ℚ) < m := Nat.cast_pos.mpr hm
  have hpos' : (0 : ℚ) < m' := Nat.cast_pos.mpr hm'
  have hx : (0 : ℚ) < m * 2 ^ e / (m' * 2 ^ e') :=
    div_pos (mul_pos hpos (zpow_pos two_pos e)) (mul_pos hpos' (zpow_pos two_pos e'))
  have hmin : Format.binary64.minExponent = -1074 := by decide
  unfold UnpackedFloat.div divCore
  dsimp only
  -- The dividend is shifted until the quotient has all the bits that count.
  generalize hleast : min (e - e')
    (Format.binary64.targetExponent (totalExponent m e - totalExponent m' e')) = least
  have hshift : least + (e - e' - least).toNat = e - e' := by omega
  have hvalue : (m * 2 ^ e / (m' * 2 ^ e') : ℚ) / 2 ^ least =
      ((m <<< (e - e' - least).toNat : ℕ) : ℚ) / m' := by
    have hpow : (2 : ℚ) ^ e = 2 ^ e' * (2 ^ least * 2 ^ (e - e' - least).toNat) := by
      rw [← zpow_natCast, ← zpow_add₀ two_ne_zero, ← zpow_add₀ two_ne_zero]
      congr 1
      omega
    rw [Nat.shiftLeft_eq, hpow]
    push_cast
    field_simp
  apply roundWithAccuracy_eq _ hx
  · rw [hvalue]
    exact lies_div _ hm'
  · have hlog : (m.log2 + e) - (m'.log2 + 1 + e') ≤ Int.log 2 (m * 2 ^ e / (m' * 2 ^ e') : ℚ) := by
      rw [← Int.zpow_le_iff_le_log one_lt_two hx, Nat.cast_ofNat, zpow_sub₀ two_ne_zero]
      have hlow : (2 : ℚ) ^ ((m.log2 : ℤ) + e) ≤ m * 2 ^ e := by
        rw [zpow_add₀ two_ne_zero]
        refine mul_le_mul_of_nonneg_right ?_ (zpow_pos two_pos e).le
        exact_mod_cast Nat.log2_self_le hm.ne'
      have hhigh : (m' * 2 ^ e' : ℚ) ≤ 2 ^ ((m'.log2 : ℤ) + 1 + e') := by
        rw [zpow_add₀ two_ne_zero]
        refine mul_le_mul_of_nonneg_right ?_ (zpow_pos two_pos e').le
        exact_mod_cast (Nat.lt_log2_self (n := m')).le
      exact div_le_div₀ (mul_pos hpos (zpow_pos two_pos e)).le hlow
        (mul_pos hpos' (zpow_pos two_pos e')) hhigh
    simp only [Format.targetExponent, totalExponent, hmin, Format.mantissaBits] at hleast
    unfold target
    omega

/-- A product of two finite numbers is rounded from its exact value, if no bits are missing. -/
theorem mul_eq_rounding (s s' : Sign) {m m' : ℕ} {e e' : ℤ} (hm : 0 < m) (hm' : 0 < m')
    (h : 2 ^ 52 ≤ m * m' ∨ e + e' ≤ -1074) :
    UnpackedFloat.mul .binary64 (.finite s m e hm) (.finite s' m' e' hm') =
      rounding (s * s') (m * 2 ^ e * (m' * 2 ^ e')) := by
  have hpos : 0 < m * m' := Nat.mul_pos hm hm'
  have hvalue : (m * 2 ^ e * (m' * 2 ^ e') : ℚ) = (m * m' : ℕ) * 2 ^ (e + e') := by
    rw [zpow_add₀ two_ne_zero]
    push_cast
    ring
  rw [hvalue]
  apply roundWithAccuracy_eq _ (mul_pos (Nat.cast_pos.mpr hpos) (zpow_pos two_pos _))
  · rw [mul_div_cancel_right₀ _ (zpow_pos two_pos _).ne']
    exact lies_natCast _
  · rw [target_mul_zpow hpos]
    have := (Nat.le_log2 (n := m * m') (k := 52) hpos.ne').mpr
    omega

theorem round_eq_rounding (s : Sign) {m : ℕ} (e : ℤ) (hm : 0 < m) :
    UnpackedFloat.round .binary64 s m e = rounding s (m * 2 ^ e) := by
  have hmin : Format.binary64.minExponent = -1074 := by decide
  have htarget : Format.binary64.targetExponent (totalExponent m e) = target (m * 2 ^ e : ℚ) := by
    simp only [target_mul_zpow hm, Format.targetExponent, totalExponent, hmin, Format.mantissaBits]
    omega
  unfold UnpackedFloat.round decreaseExponent
  dsimp only
  rw [htarget]
  generalize hk : (e - target (m * 2 ^ e : ℚ)).toNat = k
  apply roundWithAccuracy_eq _ (mul_pos (Nat.cast_pos.mpr hm) (zpow_pos two_pos e))
  · have hvalue : (m * 2 ^ e / 2 ^ (e - k) : ℚ) = (m <<< k : ℕ) := by
      rw [Nat.shiftLeft_eq, zpow_sub₀ two_ne_zero, zpow_natCast]
      push_cast
      field_simp
    rw [hvalue]
    exact lies_natCast _
  · omega

theorem rounding_of_lt {x : ℚ} (s : Sign) (hx : 0 < x) (h : x < 2 ^ (-1075 : ℤ)) :
    rounding s x = .zero s := by
  have hlog : Int.log 2 x < -1075 := (Int.lt_zpow_iff_log_lt one_lt_two hx).mp (by exact_mod_cast h)
  have htarget : target x = -1074 := by
    unfold target
    omega
  have hhalf : x / 2 ^ (-1074 : ℤ) < 1 / 2 := by
    rw [div_lt_iff₀ (zpow_pos two_pos _)]
    refine lt_of_lt_of_eq h ?_
    rw [show (-1075 : ℤ) = -1 + -1074 by norm_num, zpow_add₀ two_ne_zero]
    norm_num
  have hfloor : ⌊x / 2 ^ (-1074 : ℤ)⌋₊ = 0 := Nat.floor_eq_zero.mpr (by linarith)
  rw [rounding, htarget, roundEven, hfloor, Nat.cast_zero, zero_add, if_pos hhalf]
  rfl

/-- From here on numbers round to more than every double. -/
def overflowBound : ℚ := 2 ^ 1024 - 2 ^ 970

theorem overflowBound_eq : overflowBound = ((2 ^ 54 - 1 : ℕ) : ℚ) * 2 ^ (970 : ℤ) := by
  rw [overflowBound, zpow_ofNat, show (1024 : ℕ) = 54 + 970 from rfl, pow_add]
  generalize (2 : ℚ) ^ 970 = ulp
  norm_num
  ring

theorem overflowBound_pos : 0 < overflowBound := by
  rw [overflowBound_eq]
  exact mul_pos (by norm_num) (zpow_pos two_pos _)

theorem overflowBound_div : overflowBound / 2 ^ (971 : ℤ) = ((2 ^ 53 - 1 : ℕ) : ℚ) + 1 / 2 := by
  rw [overflowBound_eq, show (971 : ℤ) = 970 + 1 from rfl, zpow_add₀ two_ne_zero]
  field_simp
  norm_num

theorem two_pow_top : (2 : ℚ) ^ 1024 = 2 ^ 53 * 2 ^ (971 : ℤ) := by
  rw [zpow_ofNat, ← pow_add]

/-- Half an ulp above the largest double rounds up, for its mantissa is odd. -/
theorem magnitude_rounding_overflowBound (s : Sign) :
    magnitude (rounding s overflowBound) = 2 ^ 1024 := by
  have hlog : (2 ^ 54 - 1).log2 = 53 := (Nat.log2_eq_iff (by norm_num)).mpr (by norm_num)
  have htarget : target overflowBound = 971 := by
    rw [overflowBound_eq, target_mul_zpow (by norm_num), hlog]
    norm_num
  rw [magnitude_rounding s overflowBound_pos, htarget, overflowBound_div, roundEven_half, two_pow_top]
  norm_num

theorem two_pow_le_magnitude_rounding_iff (s : Sign) {x : ℚ} (hx : 0 < x) :
    2 ^ 1024 ≤ magnitude (rounding s x) ↔ overflowBound ≤ x := by
  constructor
  · intro h
    by_contra! hlt
    have hpow : (0 : ℚ) < 2 ^ target x := zpow_pos two_pos _
    rw [magnitude_rounding s hx, two_pow_top] at h
    have hlog : Int.log 2 x < 1024 := by
      rw [← Int.lt_zpow_iff_log_lt one_lt_two hx, Nat.cast_ofNat, zpow_ofNat]
      refine hlt.trans ?_
      rw [overflowBound]
      exact sub_lt_self _ (pow_pos two_pos _)
    have htarget : target x ≤ 971 := by
      unfold target
      omega
    -- A smaller exponent does not reach so far, and at the last one the half is not reached.
    rcases htarget.lt_or_eq with hlow | htop
    · have hround : (roundEven (x / 2 ^ target x) : ℚ) ≤ 2 ^ 53 := by
        exact_mod_cast roundEven_target_le x hx
      have hless : (2 : ℚ) ^ target x < 2 ^ (971 : ℤ) := zpow_lt_zpow_right₀ one_lt_two hlow
      have := mul_lt_mul' hround hless hpow.le (by positivity)
      linarith
    · rw [htop] at h hpow
      have hhalf : x / 2 ^ (971 : ℤ) < ((2 ^ 53 - 1 : ℕ) : ℚ) + 1 / 2 := by
        rw [← overflowBound_div]
        exact div_lt_div_of_pos_right hlt hpow
      have hround : (roundEven (x / 2 ^ (971 : ℤ)) : ℚ) ≤ (2 ^ 53 - 1 : ℕ) := by
        exact_mod_cast roundEven_le_of_lt (div_pos hx hpow).le hhalf
      have := le_of_mul_le_mul_right h hpow
      norm_num at this hround
      linarith
  · intro h
    rw [← magnitude_rounding_overflowBound s]
    exact magnitude_rounding_mono s s overflowBound_pos h

theorem two_pow_le_magnitude_iff {m : ℕ} {e : ℤ} (h : Canonical m e) :
    (2 : ℚ) ^ 1024 ≤ m * 2 ^ e ↔ 971 < e := by
  have hpow : (0 : ℚ) < 2 ^ e := zpow_pos two_pos e
  constructor
  · intro hle
    by_contra! he
    have hm : (m : ℚ) < 2 ^ 53 := by exact_mod_cast h.lt
    have hexp : (2 : ℚ) ^ e ≤ 2 ^ (971 : ℤ) := zpow_le_zpow_right₀ one_le_two he
    have := mul_lt_mul hm hexp hpow (by positivity)
    rw [two_pow_top] at hle
    linarith
  · intro he
    have hm : (2 : ℚ) ^ 52 ≤ m := by exact_mod_cast h.full.resolve_right (by omega)
    have hexp : (2 : ℚ) ^ (971 + 1 : ℤ) ≤ 2 ^ e := zpow_le_zpow_right₀ one_le_two he
    have := mul_le_mul hm hexp (zpow_pos two_pos _).le (Nat.cast_nonneg m)
    rw [zpow_add₀ two_ne_zero] at this
    rw [two_pow_top]
    linarith

end Tween.Number
