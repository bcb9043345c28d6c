import Tween.Number.Sine
import Tween.Proofs.Enclosures

namespace Tween.Number

open Float.Model (UnpackedFloat)
open Float.Model.UnpackedFloat

/-- The terms of an alternating sum grow smaller, so it stays between zero and its first term. -/
theorem arctanSeries_le (unit : ℕ) {q odd power : ℕ} (hq : 0 < q) (hodd : 0 < odd) (hpower : 0 < power)
    (terms : ℕ) :
    (arctanSeries unit q terms odd power).2 ≤ (arctanSeries unit q terms odd power).1 ∧
      (arctanSeries unit q terms odd power).1 ≤
        (arctanSeries unit q terms odd power).2 + unit / (odd * power) := by
  induction terms generalizing odd power with
  | zero => exact ⟨le_rfl, Nat.zero_le _⟩
  | succ terms ih =>
    have hnext := ih (show 0 < odd + 2 by omega) (show 0 < q * q * power by positivity)
    have hless : unit / ((odd + 2) * (q * q * power)) ≤ unit / (odd * power) := by
      refine Nat.div_le_div_left (Nat.mul_le_mul (by omega) ?_) (by positivity)
      exact Nat.le_mul_of_pos_left _ (by positivity)
    rw [arctanSeries]
    dsimp only
    omega

/-- With a term at least the sum is between the first and the second partial sum. -/
theorem le_arctanSeries (unit : ℕ) {q terms : ℕ} (hq : 0 < q) (hterms : 0 < terms) :
    unit / q ≤ (arctanSeries unit q terms 1 q).1 - (arctanSeries unit q terms 1 q).2 +
        unit / (3 * (q * q * q)) ∧
      (arctanSeries unit q terms 1 q).1 - (arctanSeries unit q terms 1 q).2 ≤ unit / q := by
  obtain ⟨terms, rfl⟩ := Nat.exists_eq_add_one_of_ne_zero hterms.ne'
  have hrest := arctanSeries_le unit hq (show 0 < 1 + 2 by decide)
    (show 0 < q * q * q by positivity) terms
  rw [arctanSeries, one_mul]
  simp only [Nat.reduceAdd] at hrest ⊢
  generalize unit / q = first
  omega

theorem mul_le_twoTo {q : ℕ} (hq : 128 ≤ q) : 1000 * q ≤ twoTo q := by
  induction q, hq using Nat.le_induction with
  | base => decide
  | succ q _ ih =>
    have hdouble : twoTo (q + 1) = 2 * twoTo q := by rw [twoTo, twoTo]; exact Nat.pow_succ'
    omega

theorem halfPi_bounds {q : ℕ} (hq : 128 ≤ q) :
    6 * twoTo q ≤ 5 * (halfPi q).lo ∧ 5 * (halfPi q).lo ≤ 8 * twoTo q ∧
      (halfPi q).lo ≤ (halfPi q).hi := by
  have hunit := mul_le_twoTo hq
  obtain ⟨hlow, hhigh⟩ := le_arctanSeries (twoTo q) (show 0 < 5 by decide)
    (show 0 < q / 4 + 2 by omega)
  obtain ⟨-, hhigh'⟩ := le_arctanSeries (twoTo q) (show 0 < 239 by decide)
    (show 0 < q / 15 + 2 by omega)
  unfold halfPi arctanInverse
  simp only [Span.sub, Span.mulNat]
  omega

theorem lo_waveSeries_le (p : ℕ) (u : Span) (terms d : ℕ) (acc : Span) :
    (waveSeries p u (terms + 1) d acc).lo ≤ twoTo p := by
  induction terms generalizing d acc with
  | zero => exact Nat.sub_le _ _
  | succ terms ih => exact ih _ _

theorem lo_cosineSpan_le (p : ℕ) (r : Span) : (cosineSpan p r).lo ≤ twoTo p :=
  lo_waveSeries_le _ _ _ _ _

theorem lo_sineSpan_le (p : ℕ) (r : Span) : (sineSpan p r).lo ≤ r.lo := by
  refine Span.lo_mul_le p _ _ (Nat.mul_le_mul_left _ ?_)
  exact lo_waveSeries_le _ _ _ _ _

/-- What is left of an angle after whole right angles is not more than one. -/
theorem sineEnds_le (negative : Bool) (m : ℕ) (e : ℤ) {p : ℕ} (hp : 128 ≤ p) :
    ∃ q v flipped, (sineEnds negative m e p).1 = nearest flipped v (twoTo q) ∧ v ≤ twoTo q := by
  unfold sineEnds
  dsimp only
  generalize hq : p + (m.log2 + 1 + e).toNat = q
  obtain ⟨hlow, hhigh, hends⟩ := halfPi_bounds (q := q) (by omega)
  refine ⟨q, _, _, rfl, ?_⟩
  have hx := Span.lo_le_hi_ofScaled q m e
  generalize Span.ofScaled q m e = x at hx
  generalize halfPi q = right at *
  have hpos : 0 < right.lo := by
    have : 0 < twoTo q := Nat.two_pow_pos q
    omega
  have hmod := Nat.div_add_mod (2 * x.lo + right.lo) (2 * right.lo)
  have hlt := Nat.mod_lt (2 * x.lo + right.lo) (show 0 < 2 * right.lo by omega)
  generalize (2 * x.lo + right.lo) % (2 * right.lo) = rest at hmod hlt
  generalize (2 * x.lo + right.lo) / (2 * right.lo) = n at *
  have hturn : right.lo * n ≤ right.hi * n := Nat.mul_le_mul_right n hends
  rw [mul_assoc] at hmod
  split
  · refine (lo_sineSpan_le _ _).trans ?_
    unfold Span.sub Span.mulNat
    split_ifs <;> dsimp only <;> omega
  · exact lo_cosineSpan_le _ _

theorem sineEnds_of_near_halfPi {m : ℕ} {e : ℤ} (hlow : (6 / 5 : ℚ) ≤ m * 2 ^ e)
    (hhigh : (m * 2 ^ e : ℚ) ≤ 8 / 5) {p : ℕ} (hp : 128 ≤ p) (negative : Bool) :
    ∃ q v, (sineEnds negative m e p).1 = nearest negative v (twoTo q) ∧ v ≤ twoTo q := by
  unfold sineEnds
  dsimp only
  generalize hq : p + (m.log2 + 1 + e).toNat = q
  obtain ⟨hlow', hhigh', -⟩ := halfPi_bounds (q := q) (by omega)
  have hunit := mul_le_twoTo (q := q) (by omega)
  have hscale : (m * 2 ^ (e + q) : ℚ) = m * 2 ^ e * twoTo q := by
    rw [zpow_add₀ two_ne_zero, zpow_natCast, cast_twoTo, mul_assoc]
  have hx₁ : 6 * twoTo q < 5 * (Span.ofScaled q m e).lo + 5 := by
    have h := Span.lt_lo_ofScaled_add_one q m e
    rw [hscale] at h
    have h' := mul_le_mul_of_nonneg_right hlow (Nat.cast_nonneg (twoTo q))
    have : (6 * twoTo q : ℚ) < 5 * (Span.ofScaled q m e).lo + 5 := by linarith
    exact_mod_cast this
  have hx₂ : 5 * (Span.ofScaled q m e).lo ≤ 8 * twoTo q := by
    have h := Span.lo_ofScaled_le q m e
    rw [hscale] at h
    have h' := mul_le_mul_of_nonneg_right hhigh (Nat.cast_nonneg (twoTo q))
    have : (5 * (Span.ofScaled q m e).lo : ℚ) ≤ 8 * twoTo q := by linarith
    exact_mod_cast this
  generalize Span.ofScaled q m e = x at *
  generalize halfPi q = right at *
  -- The nearest multiple of a right angle is the first, so the sine is a cosine of the rest.
  have hn : (2 * x.lo + right.lo) / (2 * right.lo) = 1 :=
    Nat.div_eq_of_lt_le (by omega) (by omega)
  rw [hn, if_neg (by decide)]
  exact ⟨q, _, congrArg (nearest · _ _) (by simp), lo_cosineSpan_le q _⟩

/-- An exponent that is below the bits of the mantissa makes it one at most. -/
theorem mul_zpow_le_one {m : ℕ} {e : ℤ} (h : m.log2 + 1 + e ≤ 0) : (m * 2 ^ e : ℚ) ≤ 1 := by
  have hbits : (m : ℚ) ≤ 2 ^ ((m.log2 : ℤ) + 1) := by exact_mod_cast (Nat.lt_log2_self (n := m)).le
  calc (m * 2 ^ e : ℚ) ≤ 2 ^ ((m.log2 : ℤ) + 1) * 2 ^ e :=
        mul_le_mul_of_nonneg_right hbits (zpow_pos two_pos e).le
    _ = 2 ^ ((m.log2 : ℤ) + 1 + e) := (zpow_add₀ two_ne_zero _ _).symm
    _ ≤ 1 := zpow_le_one_of_nonpos₀ one_le_two h

/-- The sine of a finite angle is between minus one and one, and not positive around minus a right
angle. -/
theorem exists_sine {x : Float} {a : ℚ} (h : Denotes x a) :
    ∃ y b, sine x = .ok y ∧ Denotes y b ∧ |b| ≤ 1 ∧ (-(8 / 5) ≤ a → a ≤ -(6 / 5) → b ≤ 0) := by
  rcases h.parts_cases with ⟨⟨s, hs⟩, rfl⟩ | ⟨s, m, e, hm, hs, -, -, rfl⟩
  · refine ⟨x, 0, by rw [sine, hs], h, by simp, fun _ _ => le_rfl⟩
  · rw [sine, hs]
    dsimp only
    split
    · next hsmall =>
      -- So small an angle is its own sine, and away from a right angle.
      have habs : |((s.apply m : ℤ) : ℚ) * 2 ^ e| ≤ 1 := by
        rw [← withSign_apply, abs_withSign s (mul_nonneg (Nat.cast_nonneg m) (zpow_pos two_pos e).le)]
        exact mul_zpow_le_one (by omega)
      exact ⟨x, _, rfl, h, habs, fun _ hhigh => by linarith [(abs_le.mp habs).1]⟩
    · obtain ⟨p, hp, heq⟩ := exists_settle_eq (sineEnds (s == .negative) m e) 5 128
      rw [heq]
      by_cases hnear : s = .negative ∧ (6 / 5 : ℚ) ≤ m * 2 ^ e ∧ (m * 2 ^ e : ℚ) ≤ 8 / 5
      · obtain ⟨rfl, hlow, hhigh⟩ := hnear
        obtain ⟨q, v, hends, hv⟩ := sineEnds_of_near_halfPi hlow hhigh hp true
        obtain ⟨b, hb, h₀, h₁⟩ := denotes_nearest_of_le true (Nat.two_pow_pos q) hv
        refine ⟨_, -b, rfl, ?_, by rwa [abs_neg, abs_of_nonneg h₀], fun _ _ => by linarith⟩
        rw [show (Sign.negative == Sign.negative) = true from rfl, hends]
        exact hb
      · obtain ⟨q, v, flipped, hends, hv⟩ := sineEnds_le (s == .negative) m e hp
        obtain ⟨b, hb, h₀, h₁⟩ := denotes_nearest_of_le flipped (Nat.two_pow_pos q) hv
        refine ⟨_, _, rfl, hends ▸ hb, (abs_withSign _ h₀).trans_le h₁, fun hlow hhigh => ?_⟩
        have hpos : (0 : ℚ) ≤ m * 2 ^ e := mul_nonneg (Nat.cast_nonneg m) (zpow_pos two_pos e).le
        rw [← withSign_apply] at hlow hhigh
        cases s with
        | positive => exact absurd (hpos.trans hhigh) (by norm_num)
        | negative => exact absurd ⟨rfl, neg_le_neg_iff.mp hhigh, neg_le_neg_iff.mp hlow⟩ hnear

end Tween.Number
