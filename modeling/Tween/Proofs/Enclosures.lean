import Tween.Number.Exponential
import Tween.Proofs.Precision

namespace Tween.Number

open Float.Model (UnpackedFloat Format totalExponent)
open Float.Model.UnpackedFloat

theorem one_lt_overflowBound : (1 : ℚ) < overflowBound := by
  have h := mul_zpow_lt_overflowBound (m := 1) (e := 0) (by norm_num) (by norm_num)
  rwa [zpow_zero, mul_one, Nat.cast_one] at h

theorem cast_twoTo {R : Type*} [Semiring R] (k : ℕ) : (twoTo k : R) = 2 ^ k :=
  (Nat.cast_pow 2 k).trans (by rw [Nat.cast_ofNat])

namespace Span

theorem lo_ofScaled_le (p m : ℕ) (e : ℤ) : ((ofScaled p m e).lo : ℚ) ≤ m * 2 ^ (e + p) := by
  unfold ofScaled
  dsimp only
  rcases le_or_gt 0 (e + p) with h | h
  · obtain ⟨k, hk⟩ := Int.eq_ofNat_of_zero_le h
    rw [hk, if_pos (Int.natCast_nonneg k), Int.toNat_natCast, Nat.shiftLeft_eq, zpow_natCast]
    push_cast
    exact le_rfl
  · obtain ⟨k, hk⟩ : ∃ k : ℕ, e + p = -k := ⟨(-(e + p)).toNat, by omega⟩
    rw [hk, if_neg (by omega), neg_neg, Int.toNat_natCast, Nat.shiftRight_eq_div_pow, zpow_neg,
      zpow_natCast, ← div_eq_mul_inv]
    exact_mod_cast Nat.cast_div_le (m := m) (n := 2 ^ k)

theorem lo_mul_le (p : ℕ) (a b : Span) {c : ℕ} (h : a.lo * b.lo ≤ c * 2 ^ p) :
    (mul p a b).lo ≤ c := by
  rw [mul, Nat.shiftRight_eq_div_pow]
  exact Nat.div_le_of_le_mul (h.trans_eq (Nat.mul_comm _ _))

theorem lo_squares_le (p k : ℕ) {a : Span} {r : ℝ} (h : (a.lo : ℝ) ≤ 2 ^ p * r) :
    ((squares p k a).lo : ℝ) ≤ 2 ^ p * r ^ 2 ^ k := by
  induction k generalizing a r with
  | zero => simpa [squares] using h
  | succ k ih =>
    have hpow : (0 : ℝ) < 2 ^ p := by positivity
    have hsquare : ((mul p a a).lo : ℝ) ≤ 2 ^ p * r ^ 2 := by
      have hshift : ((mul p a a).lo : ℝ) * 2 ^ p ≤ a.lo * a.lo := by
        rw [mul, Nat.shiftRight_eq_div_pow]
        exact_mod_cast Nat.div_mul_le_self (a.lo * a.lo) (2 ^ p)
      have hbound : (a.lo : ℝ) * a.lo ≤ 2 ^ p * r * (2 ^ p * r) :=
        mul_self_le_mul_self (Nat.cast_nonneg _) h
      nlinarith [hshift, hbound]
    rw [squares, pow_succ', pow_mul]
    exact ih hsquare

theorem lo_mul_le_real {p : ℕ} {a b : Span} {r s : ℝ} (hr : 0 ≤ r) (ha : (a.lo : ℝ) ≤ 2 ^ p * r)
    (hb : (b.lo : ℝ) ≤ 2 ^ p * s) : ((mul p a b).lo : ℝ) ≤ 2 ^ p * (r * s) := by
  have hpow : (0 : ℝ) < 2 ^ p := by positivity
  have hshift : ((mul p a b).lo : ℝ) * 2 ^ p ≤ a.lo * b.lo := by
    rw [mul, Nat.shiftRight_eq_div_pow]
    exact_mod_cast Nat.div_mul_le_self (a.lo * b.lo) (2 ^ p)
  have hbound : (a.lo : ℝ) * b.lo ≤ 2 ^ p * r * (2 ^ p * s) :=
    mul_le_mul ha hb (Nat.cast_nonneg _) (by positivity)
  nlinarith [hshift, hbound]

theorem lo_divNat_le {a : Span} {x : ℝ} (n : ℕ) (ha : (a.lo : ℝ) ≤ x) :
    ((a.divNat n).lo : ℝ) ≤ x / n :=
  Nat.cast_div_le.trans (div_le_div_of_nonneg_right ha (Nat.cast_nonneg n))

theorem lo_le_hi_ofScaled (p m : ℕ) (e : ℤ) : (ofScaled p m e).lo ≤ (ofScaled p m e).hi := by
  unfold ofScaled
  dsimp only
  split
  · exact le_rfl
  · rw [Nat.shiftRight_eq_div_pow]
    exact Nat.div_le_div_right (Nat.le_add_right _ _)

theorem lt_lo_ofScaled_add_one (p m : ℕ) (e : ℤ) :
    (m * 2 ^ (e + p) : ℚ) < (ofScaled p m e).lo + 1 := by
  unfold ofScaled
  dsimp only
  rcases le_or_gt 0 (e + p) with h | h
  · obtain ⟨k, hk⟩ := Int.eq_ofNat_of_zero_le h
    rw [hk, if_pos (Int.natCast_nonneg k), Int.toNat_natCast, Nat.shiftLeft_eq, zpow_natCast]
    push_cast
    exact lt_add_one _
  · obtain ⟨k, hk⟩ : ∃ k : ℕ, e + p = -k := ⟨(-(e + p)).toNat, by omega⟩
    rw [hk, if_neg (by omega), neg_neg, Int.toNat_natCast, Nat.shiftRight_eq_div_pow, zpow_neg,
      zpow_natCast, ← div_eq_mul_inv, div_lt_iff₀ (by positivity)]
    exact_mod_cast Nat.lt_mul_of_div_lt (Nat.lt_succ_self _) (by positivity)

end Span

theorem exists_settle_eq (ends : ℕ → Float × Float) (fuel p : ℕ) :
    ∃ q, p ≤ q ∧ settle ends fuel p = (ends q).1 := by
  induction fuel generalizing p with
  | zero => exact ⟨p, le_rfl, rfl⟩
  | succ fuel ih =>
    rw [settle]
    dsimp only
    split
    · exact ⟨p, le_rfl, rfl⟩
    · obtain ⟨q, hq, heq⟩ := ih (2 * p)
      exact ⟨q, by omega, heq⟩

theorem denotes_nearest (negative : Bool) {num den : ℕ} (hden : 0 < den) {c : ℚ}
    (h : (num : ℚ) / den ≤ c) (hc : c < overflowBound) :
    ∃ b, Denotes (nearest negative num den) (withSign (signOf negative) b) ∧ 0 ≤ b ∧ b ≤ snap c := by
  have hnonneg : (0 : ℚ) ≤ num / den := div_nonneg (Nat.cast_nonneg num) (Nat.cast_nonneg den)
  refine ⟨snap (num / den), ?_, snap_zero.symm.trans_le (snap_mono hnonneg), snap_mono h⟩
  have hrounded := Denotes.rounded (signOf negative) hnonneg (h.trans_lt hc)
  rw [nearest_eq_rounded negative num hden]
  cases negative with
  | false => exact hrounded
  | true =>
    simp only [signOf, withSign, if_true] at hrounded ⊢
    rwa [snap_neg] at hrounded

theorem denotes_nearest_of_le (negative : Bool) {num den : ℕ} (hden : 0 < den) (h : num ≤ den) :
    ∃ b, Denotes (nearest negative num den) (withSign (signOf negative) b) ∧ 0 ≤ b ∧ b ≤ 1 := by
  have hratio : (num : ℚ) / den ≤ 1 :=
    div_le_one_of_le₀ (Nat.cast_le.mpr h) (Nat.cast_nonneg den)
  obtain ⟨b, hb, h₀, h₁⟩ := denotes_nearest negative hden hratio one_lt_overflowBound
  refine ⟨b, hb, h₀, h₁.trans_eq ?_⟩
  exact_mod_cast snap_intCast (n := 1) (by decide)

theorem denotes_nearest_of_real {num den : ℕ} (hden : 0 < den) {r : ℝ} {c : ℚ}
    (h : (num / den : ℝ) ≤ r) (hr : r ≤ c) (hc : c < overflowBound) :
    ∃ b, Denotes (nearest false num den) b ∧ 0 ≤ b ∧ b ≤ snap c := by
  refine denotes_nearest false hden ?_ hc
  rw [← Rat.cast_le (K := ℝ)]
  push_cast
  exact h.trans hr

open Finset in
/-- Horner's rule over the remaining terms stays below the exponential if it starts there. -/
theorem lo_expSeries_le_exp {q : ℕ} {y : Span} {r : ℝ} (hr : 0 ≤ r) (hy : (y.lo : ℝ) ≤ 2 ^ q * r)
    (n : ℕ) {acc : Span} {s : ℝ} (hacc : (acc.lo : ℝ) ≤ 2 ^ q * s)
    (hs : ∑ i ∈ range n, r ^ i / i.factorial + r ^ n / n.factorial * s ≤ Real.exp r) :
    ((expSeries q y n n acc).lo : ℝ) ≤ 2 ^ q * Real.exp r := by
  induction n generalizing acc s with
  | zero =>
    refine hacc.trans (mul_le_mul_of_nonneg_left ?_ (by positivity))
    simpa using hs
  | succ n ih =>
    have hnext : ((Span.add (.one q) ((Span.mul q y acc).divNat (n + 1))).lo : ℝ) ≤
        2 ^ q * (1 + r * s / (n + 1)) := by
      have hdiv := Span.lo_divNat_le (n + 1) (Span.lo_mul_le_real hr hy hacc)
      change ((2 ^ q + ((Span.mul q y acc).divNat (n + 1)).lo : ℕ) : ℝ) ≤ _
      push_cast at hdiv ⊢
      rw [mul_add, mul_one, ← mul_div_assoc]
      exact add_le_add_right hdiv _
    refine ih hnext (le_of_eq_of_le ?_ hs)
    rw [sum_range_succ, Nat.factorial_succ]
    push_cast
    field_simp
    ring

theorem lo_expSpan_le_exp {p : ℕ} {y : Span} {r : ℝ} (hr : 0 ≤ r)
    (hy : (y.lo : ℝ) ≤ 2 ^ (p + guardPlaces) * r) :
    ((expSpan p y).lo : ℝ) ≤ 2 ^ (p + guardPlaces) * Real.exp (2 ^ halvings * r) := by
  have hstart : ((⟨twoTo (p + guardPlaces), twoTo (p + guardPlaces + 1)⟩ : Span).lo : ℝ) ≤
      2 ^ (p + guardPlaces) * 1 := by
    rw [mul_one, ← cast_twoTo]
  have hseries := lo_expSeries_le_exp hr hy (p / 10 + 8) hstart (by
    rw [mul_one, ← Finset.sum_range_succ]
    exact Real.sum_le_exp_of_nonneg hr _)
  have hsquares := Span.lo_squares_le (p + guardPlaces) halvings hseries
  rw [← Real.exp_nat_mul] at hsquares
  exact_mod_cast hsquares

theorem denotes_expEnds {m : ℕ} {e : ℤ} (h : (m : ℚ) * 2 ^ e ≤ 6) (p : ℕ) :
    ∃ b, Denotes (expEnds false m e p).1 b ∧ 0 ≤ b ∧ b ≤ 729 := by
  have hscaled : ((Span.ofScaled (p + guardPlaces) m (e - halvings)).lo : ℝ) ≤
      2 ^ (p + guardPlaces) * (m * 2 ^ e / 2 ^ halvings) := by
    have hlo := Span.lo_ofScaled_le (p + guardPlaces) m (e - halvings)
    rw [zpow_add₀ two_ne_zero, zpow_sub₀ two_ne_zero, zpow_natCast, zpow_natCast,
      ← Rat.cast_le (K := ℝ)] at hlo
    push_cast at hlo
    refine hlo.trans_eq ?_
    ring
  -- The halved argument is squared back, which undoes the halvings.
  have hexp := lo_expSpan_le_exp (p := p) (by positivity) hscaled
  rw [mul_div_cancel₀ _ (by positivity)] at hexp
  have hsix : Real.exp (m * 2 ^ e) ≤ 729 := by
    have h' : (m * 2 ^ e : ℝ) ≤ 6 := by
      rw [← Rat.cast_le (K := ℝ)] at h
      push_cast at h
      exact h
    calc Real.exp (m * 2 ^ e) ≤ Real.exp 6 := Real.exp_le_exp.mpr h'
      _ = Real.exp 1 ^ 6 := by rw [← Real.exp_nat_mul]; norm_num
      _ ≤ 3 ^ 6 := by
        refine pow_le_pow_left₀ (Real.exp_pos 1).le ?_ 6
        exact Real.exp_one_lt_d9.le.trans (by norm_num)
      _ = 729 := by norm_num
  have hbound : ((expSpan p (.ofScaled (p + guardPlaces) m (e - halvings))).lo : ℚ) /
      twoTo (p + guardPlaces) ≤ 729 := by
    rw [div_le_iff₀ (Nat.cast_pos.mpr (Nat.two_pow_pos _)), cast_twoTo, mul_comm,
      ← Rat.cast_le (K := ℝ)]
    push_cast
    exact hexp.trans (mul_le_mul_of_nonneg_left hsix (by positivity))
  have htop := mul_zpow_lt_overflowBound (m := 729) (e := 0) (by norm_num) (by norm_num)
  rw [zpow_zero, mul_one] at htop
  push_cast at htop
  obtain ⟨b, hb, h₀, h₁⟩ := denotes_nearest false (Nat.two_pow_pos _) hbound htop
  refine ⟨b, hb, h₀, h₁.trans_eq ?_⟩
  exact_mod_cast snap_intCast (n := 729) (by decide)

theorem le_of_scaledAtLeast {m bound : ℕ} {e : ℤ} (h : scaledAtLeast m e bound = true) :
    (bound : ℚ) ≤ m * 2 ^ e := by
  unfold scaledAtLeast at h
  split at h
  · next he =>
    obtain ⟨k, rfl⟩ := Int.eq_ofNat_of_zero_le he
    rw [decide_eq_true_iff, twoTo] at h
    rw [zpow_natCast]
    have hpow : 2 ^ min k 64 ≤ 2 ^ k := Nat.pow_le_pow_right two_pos (min_le_left _ _)
    exact_mod_cast h.trans (Nat.mul_le_mul_left m hpow)
  · next he =>
    obtain ⟨k, rfl⟩ : ∃ k : ℕ, e = -k := ⟨(-e).toNat, by omega⟩
    rw [decide_eq_true_iff, twoTo, neg_neg, Int.toNat_natCast] at h
    rw [zpow_neg, zpow_natCast, ← div_eq_mul_inv, le_div_iff₀ (by positivity)]
    exact_mod_cast h

theorem le_hi_expSpan (p : ℕ) (y : Span) : twoTo (p + guardPlaces) ≤ (expSpan p y).hi := by
  have hsquares : ∀ q k (a : Span), twoTo q ≤ a.hi → twoTo q ≤ (Span.squares q k a).hi := by
    intro q k
    induction k with
    | zero => exact fun a ha => ha
    | succ k ih =>
      refine fun a ha => ih _ ?_
      have hpos : 0 < twoTo q := Nat.two_pow_pos q
      refine (Nat.le_div_iff_mul_le hpos).mpr ((Nat.mul_le_mul ha ha).trans (Nat.le_add_right _ _))
  have hseries : ∀ q terms n (acc : Span), twoTo q ≤ (expSeries q y (terms + 1) n acc).hi := by
    intro q terms
    induction terms with
    | zero => exact fun n acc => Nat.le_add_right _ _
    | succ terms ih => exact fun n acc => ih _ _
  exact hsquares _ _ _ (hseries _ _ _ _)

theorem denotes_expEnds_negative (m : ℕ) (e : ℤ) (p : ℕ) :
    ∃ b, Denotes (expEnds true m e p).1 b ∧ 0 ≤ b ∧ b ≤ 1 := by
  have hhi := le_hi_expSpan p (.ofScaled (p + guardPlaces) m (e - halvings))
  unfold expEnds
  dsimp only
  rw [if_pos rfl]
  generalize (expSpan p (.ofScaled (p + guardPlaces) m (e - halvings))).hi = hi at hhi
  generalize hunit : twoTo (p + guardPlaces) = unit at *
  have hpos : 0 < unit := hunit ▸ Nat.two_pow_pos _
  exact denotes_nearest_of_le false (hpos.trans_le hhi) hhi

theorem exists_exp {x : Float} {a : ℚ} (h : Denotes x a) (ha : a ≤ 6) :
    ∃ y b, exp x = .ok y ∧ Denotes y b ∧ 0 ≤ b ∧ b ≤ 729 := by
  rcases h.parts_cases with ⟨⟨s, hs⟩, -⟩ | ⟨s, m, e, hm, hs, -, -, rfl⟩ <;> rw [exp, hs]
  · exact ⟨1.0, 1, rfl, .of_value (s := .positive) (m := 2 ^ 52) (e := -52) rfl
      (by norm_num [withSign]), zero_le_one, by norm_num⟩
  · cases s with
    | negative =>
      dsimp only
      split
      · exact ⟨0.0, 0, rfl, .of_parts_zero (s := .positive) rfl, le_rfl, by norm_num⟩
      · obtain ⟨p, -, hp⟩ := exists_settle_eq (expEnds true m e) 4 128
        obtain ⟨b, hb, h₀, h₁⟩ := denotes_expEnds_negative m e p
        rw [hp]
        exact ⟨_, b, rfl, hb, h₀, h₁.trans (by norm_num)⟩
    | positive =>
      dsimp only
      rw [Sign.apply, Int.cast_natCast] at ha
      rw [if_neg fun hlarge => absurd ((le_of_scaledAtLeast hlarge).trans ha) (by norm_num)]
      obtain ⟨p, -, hp⟩ := exists_settle_eq (expEnds false m e) 4 128
      obtain ⟨b, hb, h₀, h₁⟩ := denotes_expEnds ha p
      rw [hp, isInf_of_isFinite hb.1]
      exact ⟨_, b, rfl, hb, h₀, h₁⟩

theorem lnTwoSeries_le (unit terms i : ℕ) :
    (lnTwoSeries unit terms (2 * i + 1) (3 ^ (2 * i + 1)) : ℝ) ≤
      unit * ∑ j ∈ Finset.range terms,
        2 * (1 / (2 * ((i + j : ℕ) : ℝ) + 1)) * (1 / 3 : ℝ) ^ (2 * (i + j) + 1) := by
  induction terms generalizing i with
  | zero => simp [lnTwoSeries]
  | succ terms ih =>
    rw [lnTwoSeries, Finset.sum_range_succ', mul_add, add_comm (unit * _ : ℝ)]
    have hrest := ih (i + 1)
    rw [show 2 * (i + 1) + 1 = 2 * i + 1 + 2 by ring, show 3 ^ (2 * i + 1 + 2) = 9 * 3 ^ (2 * i + 1) by
      rw [pow_add]; ring] at hrest
    rw [Nat.cast_add]
    refine add_le_add ?_ (hrest.trans_eq ?_)
    · refine Nat.cast_div_le.trans_eq ?_
      rw [add_zero, one_div_pow]
      push_cast
      field_simp
    · congr 1
      refine Finset.sum_congr rfl fun j _ => ?_
      rw [add_right_comm, add_assoc i j 1]

theorem lo_lnTwo_le (p : ℕ) : ((lnTwo p).lo : ℝ) ≤ 2 ^ p * Real.log 2 := by
  have hseries := lnTwoSeries_le (twoTo p) (p / 3 + 2) 0
  have hsum := Real.hasSum_log_sub_log_of_abs_lt_one (x := 1 / 3) (by norm_num [abs_of_pos])
  have hlog : Real.log (1 + 1 / 3) - Real.log (1 - 1 / 3) = Real.log 2 := by
    rw [← Real.log_div (by norm_num) (by norm_num)]
    norm_num
  rw [hlog] at hsum
  have hpartial := sum_le_hasSum (Finset.range (p / 3 + 2)) (fun i _ => by positivity) hsum
  refine hseries.trans ?_
  rw [cast_twoTo]
  refine mul_le_mul_of_nonneg_left ?_ (by positivity)
  simpa using hpartial

theorem powerEnds_le (f k p : ℕ) {n : ℤ} (hn : n < 0) :
    ∃ num den, 0 < den ∧ (powerEnds f k n p).1 = nearest false num den ∧
      (num / den : ℝ) ≤ 2 ^ ((f / 2 ^ k + n : ℝ)) := by
  obtain ⟨j, rfl⟩ : ∃ j : ℕ, n = -j := ⟨n.natAbs, by omega⟩
  generalize hq : p + guardPlaces = q
  have hscaled : ((Span.ofScaled q f (-(k : ℤ))).lo : ℝ) ≤ 2 ^ q * (f / 2 ^ k) := by
    have hlo := Span.lo_ofScaled_le q f (-(k : ℤ))
    rw [zpow_add₀ two_ne_zero, zpow_neg, zpow_natCast, zpow_natCast] at hlo
    rw [← Rat.cast_le (K := ℝ)] at hlo
    push_cast at hlo
    refine hlo.trans_eq ?_
    ring
  -- The part below one is an exponential, and the whole part shifts.
  have harg := Span.lo_divNat_le (twoTo halvings)
    (Span.lo_mul_le_real (by positivity) hscaled (lo_lnTwo_le q))
  rw [cast_twoTo, mul_div_assoc] at harg
  have hexp := lo_expSpan_le_exp (p := p) (div_nonneg
    (mul_nonneg (by positivity) (Real.log_nonneg one_le_two)) (by positivity)) (hq.symm ▸ harg)
  rw [mul_div_cancel₀ _ (by positivity), hq] at hexp
  unfold powerEnds
  dsimp only
  rw [hq, if_neg (by omega), neg_neg, Int.toNat_natCast]
  refine ⟨_, twoTo (q + j), Nat.two_pow_pos _, rfl, ?_⟩
  rw [cast_twoTo, Real.rpow_def_of_pos two_pos, div_le_iff₀ (by positivity)]
  refine hexp.trans_eq ?_
  push_cast
  rw [mul_add, Real.exp_add, pow_add, mul_neg, Real.exp_neg, mul_comm (Real.log 2) (j : ℝ),
    Real.exp_nat_mul, Real.exp_log two_pos]
  field_simp

theorem denotes_powerOfScaled {m : ℕ} (hm : 0 < m) (e : ℤ) {c : ℚ}
    (hle : (2 : ℝ) ^ (((Sign.negative.apply m : ℤ) * 2 ^ e : ℚ) : ℝ) ≤ c) (hc : c < overflowBound) :
    ∃ b, Denotes (powerOfScaled true m e) b ∧ 0 ≤ b ∧ b ≤ snap c := by
  unfold powerOfScaled
  split
  · next he =>
    -- A whole exponent only shifts.
    obtain ⟨k, rfl⟩ := Int.eq_ofNat_of_zero_le he
    simp only [if_true, Int.toNat_natCast]
    have hunit : 0 < twoTo (m <<< k) := Nat.two_pow_pos _
    refine denotes_nearest_of_real hunit (le_of_eq ?_) hle hc
    rw [cast_twoTo, Sign.apply, Nat.shiftLeft_eq, zpow_natCast]
    push_cast
    rw [neg_mul, Real.rpow_neg two_pos.le, ← Real.rpow_natCast]
    push_cast
    rw [one_div]
  · next he =>
    -- Any other is split into a whole part below zero and a rest below one.
    obtain ⟨k, rfl⟩ : ∃ k : ℕ, e = -k := ⟨(-e).toNat, by omega⟩
    simp only [if_true, neg_neg, Int.toNat_natCast]
    have hpow : (0 : ℤ) < twoTo k := by exact_mod_cast Nat.two_pow_pos k
    have hsplit := Int.mul_fdiv_add_fmod (-(m : ℤ)) (twoTo k)
    have hrest := Int.fmod_nonneg_of_pos (-(m : ℤ)) hpow
    generalize (-(m : ℤ)).fmod (twoTo k) = f at hsplit hrest
    generalize (-(m : ℤ)).fdiv (twoTo k) = n at hsplit
    have hn : n < 0 := by nlinarith
    obtain ⟨f, rfl⟩ := Int.eq_ofNat_of_zero_le hrest
    obtain ⟨p, -, hp⟩ := exists_settle_eq (powerEnds f k n) 4 128
    obtain ⟨num, den, hden, heq, hbound⟩ := powerEnds_le f k p hn
    rw [Int.toNat_natCast, hp, heq]
    refine denotes_nearest_of_real hden (hbound.trans_eq ?_) hle hc
    have hsplit' : (2 : ℝ) ^ k * n + f = -m := by
      rw [← cast_twoTo]
      exact_mod_cast hsplit
    congr 1
    rw [Sign.apply]
    push_cast
    rw [zpow_neg, zpow_natCast, ← div_eq_mul_inv, eq_div_iff (by positivity), ← hsplit']
    field_simp
    ring

/-- A power of two with an exponent that is not positive does not exceed the double nearest to a bound
on it. -/
theorem exists_twoPow {x : Float} {a c : ℚ} (h : Denotes x a) (ha : a ≤ 0)
    (hle : (2 : ℝ) ^ (a : ℝ) ≤ c) (hc : c < overflowBound) :
    ∃ y b, twoPow x = .ok y ∧ Denotes y b ∧ 0 ≤ b ∧ b ≤ snap c := by
  have hpos : 0 ≤ c := by exact_mod_cast (Real.rpow_pos_of_pos two_pos (a : ℝ)).le.trans hle
  have hzero : Denotes 0.0 0 := .of_parts_zero (s := .positive) rfl
  rcases h.parts_cases with ⟨⟨s, hs⟩, rfl⟩ | ⟨s, m, e, hm, hs, -, -, rfl⟩ <;> rw [twoPow, hs]
  · have hone : (1 : ℚ) ≤ c := by
      rw [Rat.cast_zero, Real.rpow_zero] at hle
      exact_mod_cast hle
    have honeval : Denotes 1.0 1 := .of_value (s := .positive) (m := 2 ^ 52) (e := -52) rfl
      (by norm_num [withSign])
    exact ⟨1.0, 1, rfl, honeval, zero_le_one, honeval.snap_eq.symm.trans_le (snap_mono hone)⟩
  · cases s with
    | positive =>
      have : (0 : ℚ) < m * 2 ^ e := mul_pos (Nat.cast_pos.mpr hm) (zpow_pos two_pos e)
      exact absurd ha (not_le.mpr (by simpa [Sign.apply] using this))
    | negative =>
      dsimp only
      split
      · exact ⟨0.0, 0, rfl, hzero, le_rfl, snap_nonneg hpos⟩
      · obtain ⟨b, hb⟩ := denotes_powerOfScaled hm e hle hc
        exact ⟨_, b, rfl, hb⟩

end Tween.Number
