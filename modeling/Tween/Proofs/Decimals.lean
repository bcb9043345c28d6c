import Tween.Number.Layout
import Tween.Proofs.Doubles

namespace Tween.Number

open Float.Model (UnpackedFloat Format)
open Float.Model.UnpackedFloat

namespace Decimal

def value (d : Decimal) : ℚ :=
  d.digits * 10 ^ d.exponent

theorem eq_positive_of_beq {s : Sign} (h : (s == .positive) = true) : s = .positive := by
  cases s with
  | negative => cases h
  | positive => rfl

theorem powerOfTen_spec (i : Fin Float.exactlyRepresentablePowersOfTen.size) :
    Float.exactlyRepresentablePowersOfTen[i].isFinite = true ∧
      sign (parts Float.exactlyRepresentablePowersOfTen[i]) = .positive ∧
      magnitude (parts Float.exactlyRepresentablePowersOfTen[i]) = 10 ^ i.val := by
  have hfinite : ∀ i : Fin Float.exactlyRepresentablePowersOfTen.size,
      Float.exactlyRepresentablePowersOfTen[i].isFinite = true := by
    decide +kernel
  have hsign : ∀ i : Fin Float.exactlyRepresentablePowersOfTen.size,
      (sign (parts Float.exactlyRepresentablePowersOfTen[i]) == .positive) = true := by
    decide +kernel
  have hmag : ∀ i : Fin Float.exactlyRepresentablePowersOfTen.size,
      magnitude (parts Float.exactlyRepresentablePowersOfTen[i]) = 10 ^ i.val := by
    decide +kernel
  exact ⟨hfinite i, eq_positive_of_beq (hsign i), hmag i⟩

theorem toFloat_eq {m : ℕ} (hm : m < 2 ^ 53) :
    m.toUInt64.toFloat = rounded .positive (m * 2 ^ (0 : ℤ)) := by
  have hnat : m.toUInt64.toNat = m := by
    rw [UInt64.toNat_ofNat']
    omega
  change ofParts (UnpackedFloat.normalize .binary64 (m.toUInt64.toNat : ℤ) 0 .positive) = _
  rw [hnat, UnpackedFloat.normalize]
  rcases Nat.eq_zero_or_pos m with rfl | hpos
  · rw [Nat.cast_zero, Nat.cast_zero, zero_mul, rounded_zero]
    rfl
  · rw [Int.compare_eq_gt.mpr (by omega)]
    dsimp only
    rw [Int.toNat_natCast, round_eq_rounding .positive 0 hpos]
    rfl

theorem overflowBound_le_of_lt {m : ℕ} {e : ℤ} (hm : 0 < m) (he : 1024 ≤ e) :
    overflowBound ≤ m * 10 ^ e := by
  calc overflowBound ≤ 2 ^ 1024 := sub_le_self _ (pow_pos two_pos _).le
    _ ≤ 10 ^ 1024 := pow_le_pow_left₀ two_pos.le (by norm_num) _
    _ = 10 ^ (1024 : ℤ) := (zpow_ofNat _ _).symm
    _ ≤ 10 ^ e := zpow_le_zpow_right₀ (by norm_num) he
    _ ≤ m * 10 ^ e := by
      refine le_mul_of_one_le_left (zpow_pos (by norm_num) e).le ?_
      exact_mod_cast hm

theorem lt_two_pow_of_lt {m : ℕ} {e : ℤ} (he : e < -(1075 + m.log2)) (hneg : e ≤ 0) :
    (m : ℚ) * 10 ^ e < 2 ^ (-1075 : ℤ) := by
  obtain ⟨k, rfl⟩ : ∃ k : ℕ, e = -k := ⟨(-e).toNat, by omega⟩
  have hten : (10 : ℚ) ^ (-k : ℤ) ≤ 2 ^ (-k : ℤ) := by
    rw [zpow_neg, zpow_neg, zpow_natCast, zpow_natCast]
    exact inv_anti₀ (by positivity) (pow_le_pow_left₀ two_pos.le (by norm_num) _)
  have hlog : (m : ℚ) < 2 ^ ((m.log2 : ℤ) + 1) := by exact_mod_cast Nat.lt_log2_self (n := m)
  calc (m : ℚ) * 10 ^ (-k : ℤ) ≤ m * 2 ^ (-k : ℤ) :=
        mul_le_mul_of_nonneg_left hten (Nat.cast_nonneg m)
    _ < 2 ^ ((m.log2 : ℤ) + 1) * 2 ^ (-k : ℤ) := mul_lt_mul_of_pos_right hlog (zpow_pos two_pos _)
    _ = 2 ^ ((m.log2 : ℤ) + 1 + -k) := (zpow_add₀ two_ne_zero _ _).symm
    _ ≤ 2 ^ (-1075 : ℤ) := zpow_le_zpow_right₀ one_le_two (by omega)

/-- Powers of ten that are too large or too small to be computed make no difference. -/
theorem ofParts_ofScientific (m : ℕ) (e : ℤ) :
    ofParts (UnpackedFloat.ofScientific .binary64 m e) = rounded .positive (m * 10 ^ e) := by
  unfold UnpackedFloat.ofScientific
  split
  next hm => rw [hm, Nat.cast_zero, zero_mul, rounded_zero]
  next hm =>
    have hpos : 0 < m := Nat.pos_of_ne_zero hm
    split
    next hlarge =>
      -- A larger power overflows, whatever the digits are.
      have he : 1024 ≤ e := by
        have : (2048 : ℤ) < e := hlarge
        omega
      exact (rounded_of_le .positive (overflowBound_le_of_lt hpos he)).symm
    next =>
      split
      next hsmall =>
        -- A smaller one leaves less than half of the least double.
        have he : e < -(2048 + (m.log2 : ℤ)) := hsmall
        have hlt := lt_two_pow_of_lt (m := m) (e := e) (by omega) (by omega)
        have hvalue : (0 : ℚ) < m * 10 ^ e :=
          mul_pos (Nat.cast_pos.mpr hpos) (zpow_pos (by norm_num) e)
        rw [rounded, rounding_of_lt .positive hvalue hlt]
      next =>
        split
        next hnonneg =>
          -- The digits are shifted, for a product is rounded once only if it is long enough.
          have hbits : 2 ^ 52 ≤ (m <<< Format.binary64.mantissaBits) * 10 ^ e.toNat := by
            rw [Nat.shiftLeft_eq, show Format.binary64.mantissaBits = 53 from rfl]
            have := Nat.mul_le_mul hpos (Nat.one_le_pow e.toNat 10 (by norm_num))
            nlinarith
          have hvalue : ((m <<< Format.binary64.mantissaBits : ℕ) : ℚ) *
              2 ^ (-(Format.binary64.mantissaBits : ℤ)) * ((10 ^ e.toNat : ℕ) * 2 ^ (0 : ℤ)) =
                m * 10 ^ e := by
            rw [Nat.shiftLeft_eq, zpow_zero, zpow_neg, zpow_natCast]
            push_cast
            rw [← zpow_natCast (10 : ℚ), Int.toNat_of_nonneg hnonneg]
            field_simp
          rw [mul_eq_rounding _ _ _ _ (.inl hbits), hvalue]
          rfl
        next hneg =>
          have hvalue : (m : ℚ) * 2 ^ (0 : ℤ) / ((10 ^ (-e).toNat : ℕ) * 2 ^ (0 : ℤ)) =
              m * 10 ^ e := by
            rw [zpow_zero, mul_one, mul_one, div_eq_mul_inv]
            push_cast
            rw [← zpow_natCast, ← zpow_neg, Int.toNat_of_nonneg (by omega), neg_neg]
          rw [div_eq_rounding, hvalue]
          rfl

theorem toFloat_eq_rounded (d : Decimal) : d.toFloat = rounded .positive d.value := by
  obtain ⟨m, e⟩ := d
  have hvalue : value ⟨m, e⟩ = if e < 0 then (m : ℚ) * 2 ^ (0 : ℤ) / 10 ^ e.natAbs
      else m * 2 ^ (0 : ℤ) * 10 ^ e.natAbs := by
    rw [value, zpow_zero, mul_one]
    split
    · rw [div_eq_mul_inv, ← zpow_natCast, ← zpow_neg, show -(e.natAbs : ℤ) = e by omega]
    · rw [← zpow_natCast, show (e.natAbs : ℤ) = e by omega]
  unfold toFloat Float.ofScientific
  simp only [decide_eq_true_eq]
  split
  next h =>
    -- The digits and the power are both doubles, so the one operation is all that rounds.
    have hindex : e.natAbs < Float.exactlyRepresentablePowersOfTen.size := by
      rw [show Float.exactlyRepresentablePowersOfTen.size = 23 from rfl]
      omega
    obtain ⟨hfinite, hsign, hmag⟩ := powerOfTen_spec ⟨e.natAbs, hindex⟩
    obtain ⟨hfinite', hsign', hmag'⟩ := rounded_of_lt .positive h.1 (e := 0) (by omega) (by omega)
    rw [toFloat_eq h.1, hvalue]
    split
    · refine (div_eq_rounded hfinite' hfinite ?_).trans ?_
      · rw [hmag]
        positivity
      · rw [hsign, hsign', hmag, hmag']
        rfl
    · refine (mul_eq_rounded hfinite' hfinite).trans ?_
      rw [hsign, hsign', hmag, hmag']
      rfl
  next =>
    have hexp : (if e < 0 then Int.negOfNat e.natAbs else Int.ofNat e.natAbs) = e := by
      split
      · rw [Int.negOfNat_eq, Int.ofNat_eq_natCast]
        omega
      · rw [Int.ofNat_eq_natCast]
        omega
    rw [hexp]
    exact ofParts_ofScientific m e

theorem toFloat_congr {d d' : Decimal} (h : d.value = d'.value) : d.toFloat = d'.toFloat := by
  rw [toFloat_eq_rounded, toFloat_eq_rounded, h]

theorem value_strip (fuel : ℕ) (d : Decimal) : (strip fuel d).value = d.value := by
  induction fuel generalizing d with
  | zero => rfl
  | succ fuel ih =>
    rw [strip]
    split
    next h =>
      have hten : (d.digits : ℚ) = (d.digits / 10 : ℕ) * 10 := by
        exact_mod_cast (Nat.div_mul_cancel (Nat.dvd_of_mod_eq_zero h.2)).symm
      rw [ih, value, value, hten, zpow_add₀ (by norm_num)]
      ring
    next => rfl

theorem value_exact (m : ℕ) (e : ℤ) : (exact m e).value = m * 2 ^ e := by
  unfold exact
  split
  next h =>
    rw [value, Nat.shiftLeft_eq, zpow_zero, mul_one]
    push_cast
    rw [← zpow_natCast, Int.toNat_of_nonneg h]
  next h =>
    obtain ⟨k, rfl⟩ : ∃ k : ℕ, e = -k := ⟨(-e).toNat, by omega⟩
    rw [value, neg_neg, Int.toNat_natCast, zpow_neg, zpow_neg, zpow_natCast, zpow_natCast,
      show (10 : ℚ) = 5 * 2 by norm_num, mul_pow]
    simp only [Nat.pow_eq]
    push_cast
    field_simp

theorem eq_of_toBits {x y : Float} (h : x.toBits = y.toBits) : x = y := by
  obtain ⟨⟨b, hb⟩⟩ := x
  obtain ⟨⟨c, hc⟩⟩ := y
  obtain rfl : b = c := h
  rfl

theorem toFloat_of_onGrid? {x : Float} {num den : ℕ} {exponent : ℤ} {d : Decimal}
    (h : onGrid? x num den exponent = some d) : d.toFloat = x := by
  -- Whatever is taken has been compared with `x` bit by bit before.
  apply eq_of_toBits
  rw [← beq_iff_eq]
  unfold onGrid? at h
  dsimp only at h
  split at h
  · split at h
    next hlower =>
      obtain rfl := Option.some.inj h
      exact hlower
    next => cases h
  · split at h
    next => cases h
    next hlower _ =>
      obtain rfl := Option.some.inj h
      exact hlower
    next _ hupper =>
      obtain rfl := Option.some.inj h
      exact hupper
    next hlower hupper =>
      split at h
      · obtain rfl := Option.some.inj h
        exact hlower
      · obtain rfl := Option.some.inj h
        exact hupper
      · obtain rfl := Option.some.inj h
        split
        · exact hlower
        · exact hupper

theorem toFloat_of_firstGrid? {x : Float} {num den : ℕ} {top : ℤ} {fuel count : ℕ} {d : Decimal}
    (h : firstGrid? x num den top fuel count = some d) : d.toFloat = x := by
  induction fuel generalizing count with
  | zero => cases h
  | succ fuel ih =>
    rw [firstGrid?] at h
    split at h
    next hgrid =>
      obtain rfl := Option.some.inj h
      exact toFloat_of_onGrid? hgrid
    next => exact ih h

theorem toFloat_shortest {m : ℕ} {e : ℤ} (hm : 0 < m) (h : Canonical m e) :
    (shortest m e).toFloat = ofParts (.finite .positive m e hm) := by
  have hexact : rounded .positive (m * 2 ^ e) = ofParts (.finite .positive m e hm) := by
    rw [rounded, rounding_of_canonical .positive hm h]
  have hratio : nearest false (if 0 ≤ e then m <<< e.toNat else m)
      (if 0 ≤ e then 1 else twoTo (-e).toNat) = rounded .positive (m * 2 ^ e) := by
    split
    next he =>
      rw [nearest_eq_rounded _ _ one_pos, Nat.cast_one, div_one, Nat.shiftLeft_eq]
      push_cast
      rw [← zpow_natCast, Int.toNat_of_nonneg he]
      rfl
    next he =>
      obtain ⟨k, rfl⟩ : ∃ k : ℕ, e = -k := ⟨(-e).toNat, by omega⟩
      rw [neg_neg, Int.toNat_natCast, twoTo, Nat.pow_eq, nearest_eq_rounded _ _ (Nat.two_pow_pos k),
        zpow_neg, zpow_natCast, div_eq_mul_inv]
      push_cast
      rfl
  unfold shortest
  dsimp only
  rw [toFloat_congr (value_strip 400 _), hratio, hexact]
  rcases hgrid : firstGrid? _ _ _ _ 17 1 with _ | d
  · rw [Option.getD_none, toFloat_eq_rounded, value_exact, hexact]
  · rw [Option.getD_some, toFloat_of_firstGrid? hgrid]

end Decimal

end Tween.Number
