import Tween.Proofs.Doubles

namespace Tween.Number

open Float.Model (UnpackedFloat Format)
open Float.Model.UnpackedFloat

def withSign : Sign → ℚ → ℚ
  | .negative, x => -x
  | .positive, x => x

def snap (x : ℚ) : ℚ :=
  if x < 0 then -magnitude (rounding .positive (-x)) else magnitude (rounding .positive x)

/-- Whether a double is finite and equal to a number. -/
def Denotes (x : Float) (a : ℚ) : Prop :=
  x.isFinite = true ∧ rational x = a

theorem abs_withSign (s : Sign) {x : ℚ} (hx : 0 ≤ x) : |withSign s x| = x := by
  cases s with
  | negative => rw [withSign, abs_neg, abs_of_nonneg hx]
  | positive => rw [withSign, abs_of_nonneg hx]

theorem withSign_mul (s s' : Sign) (x y : ℚ) :
    withSign (s * s') (x * y) = withSign s x * withSign s' y := by
  cases s <;> cases s'
  · exact (neg_mul_neg x y).symm
  · exact (neg_mul x y).symm
  · exact (mul_neg x y).symm
  · rfl

theorem withSign_div (s s' : Sign) (x y : ℚ) :
    withSign (s / s') (x / y) = withSign s x / withSign s' y := by
  cases s <;> cases s'
  · exact (neg_div_neg_eq x y).symm
  · exact (neg_div y x).symm
  · exact (div_neg x).symm
  · rfl

theorem withSign_apply (s : Sign) (m : ℕ) (y : ℚ) : withSign s (m * y) = (s.apply m : ℤ) * y := by
  cases s with
  | negative => simp [withSign, Sign.apply]
  | positive => simp [withSign, Sign.apply]

theorem rational_eq (x : Float) : rational x = withSign (sign (parts x)) (magnitude (parts x)) := by
  unfold rational withSign
  cases sign (parts x) <;> rfl

theorem magnitude_rounding_sign (s : Sign) {x : ℚ} (hx : 0 ≤ x) :
    magnitude (rounding s x) = magnitude (rounding .positive x) := by
  rcases hx.eq_or_lt with rfl | hpos
  · rw [rounding_zero, rounding_zero, magnitude_zero, magnitude_zero]
  · rw [magnitude_rounding s hpos, magnitude_rounding .positive hpos]

theorem snap_withSign (s : Sign) {x : ℚ} (hx : 0 ≤ x) :
    snap (withSign s x) = withSign s (magnitude (rounding s x)) := by
  rw [magnitude_rounding_sign s hx]
  cases s with
  | positive => rw [withSign, withSign, snap, if_neg (not_lt.mpr hx)]
  | negative =>
    rw [withSign, withSign, snap]
    rcases hx.eq_or_lt with rfl | hpos
    · rw [neg_zero, if_neg (lt_irrefl 0), rounding_zero, magnitude_zero, neg_zero]
    · rw [if_pos (neg_lt_zero.mpr hpos), neg_neg]

theorem snap_zero : snap 0 = 0 := by
  rw [snap, if_neg (lt_irrefl 0), rounding_zero, magnitude_zero]

theorem snap_neg (x : ℚ) : snap (-x) = -snap x := by
  have hneg : ∀ {q : ℚ}, 0 ≤ q → snap (-q) = -snap q := by
    intro q hq
    have hminus := snap_withSign .negative hq
    have hplus := snap_withSign .positive hq
    rw [magnitude_rounding_sign .negative hq] at hminus
    simp only [withSign] at hminus hplus
    rw [hminus, hplus]
  rcases le_total 0 x with hx | hx
  · exact hneg hx
  · have := hneg (neg_nonneg.mpr hx)
    rw [neg_neg] at this
    rw [this, neg_neg]

theorem snap_mono {x y : ℚ} (h : x ≤ y) : snap x ≤ snap y := by
  unfold snap
  split
  · next hx =>
    split
    · next hy => exact neg_le_neg (magnitude_rounding_mono _ _ (neg_pos.mpr hy) (neg_le_neg h))
    · exact (neg_nonpos.mpr (magnitude_nonneg _)).trans (magnitude_nonneg _)
  · next hx =>
    rw [if_neg (not_lt.mpr ((not_lt.mp hx).trans h))]
    rcases (not_lt.mp hx).eq_or_lt with rfl | hpos
    · rw [rounding_zero, magnitude_zero]
      exact magnitude_nonneg _
    · exact magnitude_rounding_mono _ _ hpos h

theorem snap_intCast {n : ℤ} (hn : n.natAbs < 2 ^ 53) : snap n = n := by
  have hnat : ∀ m : ℕ, m < 2 ^ 53 → magnitude (rounding .positive m) = m := by
    intro m hm
    have h := magnitude_rounding_of_lt .positive hm (e := 0) (by norm_num)
    rwa [zpow_zero, mul_one] at h
  rcases le_or_gt 0 n with h | h
  · obtain ⟨m, rfl⟩ := Int.eq_ofNat_of_zero_le h
    rw [snap, if_neg (not_lt.mpr (Int.cast_nonneg h)), Int.cast_natCast, hnat m (by omega)]
  · obtain ⟨m, rfl⟩ : ∃ m : ℕ, n = -m := ⟨n.natAbs, by omega⟩
    rw [snap, if_pos (Int.cast_lt_zero.mpr h), Int.cast_neg, Int.cast_natCast, neg_neg,
      hnat m (by omega)]

theorem snap_mem_Icc {k n : ℤ} (hk : k.natAbs < 2 ^ 53) (hn : n.natAbs < 2 ^ 53) {x : ℚ}
    (h : x ∈ Set.Icc (k : ℚ) n) : snap x ∈ Set.Icc (k : ℚ) n :=
  ⟨(snap_intCast hk).symm.trans_le (snap_mono h.1), (snap_mono h.2).trans_eq (snap_intCast hn)⟩

theorem abs_lt_overflowBound {k n : ℤ} (hk : k.natAbs < 2 ^ 53) (hn : n.natAbs < 2 ^ 53) {x : ℚ}
    (h : x ∈ Set.Icc (k : ℚ) n) : |x| < overflowBound := by
  have hle : |x| ≤ (max k.natAbs n.natAbs : ℕ) := by
    rw [Nat.cast_max, Nat.cast_natAbs, Nat.cast_natAbs, Int.cast_abs, Int.cast_abs]
    exact abs_le_max_abs_abs h.1 h.2
  have htop := mul_zpow_lt_overflowBound (max_lt hk hn) (e := 0) (by norm_num)
  rw [zpow_zero, mul_one] at htop
  exact hle.trans_lt htop

theorem parts_neg (x : Float) : parts (-x) = (parts x).neg := by
  change parts (ofParts (parts x).neg) = (parts x).neg
  cases h : parts x with
  | notANumber => rfl
  | infinity s => exact parts_ofParts_infinity (-s)
  | zero s => exact parts_ofParts_zero (-s)
  | finite s m e hm =>
    obtain ⟨hcan, he⟩ := canonical_of_parts h
    exact parts_ofParts_finite (-s) hm hcan he

theorem isFinite_neg (x : Float) : (-x).isFinite = x.isFinite := by
  change (parts (-x)).isFinite = (parts x).isFinite
  rw [parts_neg]
  cases parts x <;> rfl

theorem isInf_neg (x : Float) : (-x).isInf = x.isInf := by
  change (parts (-x)).isInf = (parts x).isInf
  rw [parts_neg]
  cases parts x <;> rfl

namespace Denotes

variable {x y : Float} {a b : ℚ}

theorem snap_eq (h : Denotes x a) : snap a = a := by
  obtain ⟨hx, rfl⟩ := h
  rw [rational_eq, snap_withSign _ (magnitude_nonneg _)]
  rcases finite_cases hx with ⟨s, h⟩ | ⟨s, m, e, hm, h, hcan, -⟩ <;> rw [h]
  · rw [magnitude_zero, rounding_zero, magnitude_zero]
  · rw [magnitude_finite, rounding_of_canonical _ hm hcan, magnitude_finite]

theorem of_parts_finite {s : Sign} {m : ℕ} {e : ℤ} {hm : 0 < m} (h : parts x = .finite s m e hm) :
    Denotes x (withSign s (m * 2 ^ e)) := by
  refine ⟨?_, ?_⟩
  · change (parts x).isFinite = true
    rw [h]
    rfl
  · rw [rational_eq, h, sign, magnitude_finite]

theorem of_value {s : Sign} {m : ℕ} {e : ℤ} {hm : 0 < m} (h : parts x = .finite s m e hm)
    (ha : withSign s (m * 2 ^ e) = a) : Denotes x a :=
  ha ▸ of_parts_finite h

theorem of_parts_zero {s : Sign} (h : parts x = .zero s) : Denotes x 0 := by
  refine ⟨?_, ?_⟩
  · change (parts x).isFinite = true
    rw [h]
    rfl
  · rw [rational_eq, h, sign, magnitude_zero]
    cases s with
    | negative => exact neg_zero
    | positive => rfl

theorem parts_cases (h : Denotes x a) : ((∃ s, parts x = .zero s) ∧ a = 0) ∨
    ∃ s m e hm, parts x = .finite s m e hm ∧ Canonical m e ∧ e ≤ 971 ∧
      a = (s.apply m : ℤ) * 2 ^ e := by
  obtain ⟨hx, rfl⟩ := h
  rcases finite_cases hx with ⟨s, h⟩ | ⟨s, m, e, hm, h, hcan, he⟩
  · exact .inl ⟨⟨s, h⟩, (of_parts_zero h).2⟩
  · exact .inr ⟨s, m, e, hm, h, hcan, he, by rw [(of_parts_finite h).2, withSign_apply]⟩

theorem neg (h : Denotes x a) : Denotes (-x) (-a) := by
  have hparts := parts_neg x
  rcases h.parts_cases with ⟨⟨s, hs⟩, rfl⟩ | ⟨s, m, e, hm, hs, -, -, rfl⟩ <;> rw [hs] at hparts
  · rw [neg_zero]
    exact of_parts_zero hparts
  · refine of_value hparts ?_
    rw [← withSign_apply]
    cases s with
    | negative => exact (neg_neg _).symm
    | positive => rfl

theorem rounded (s : Sign) {q : ℚ} (hq : 0 ≤ q) (h : q < overflowBound) :
    Denotes (Number.rounded s q) (snap (withSign s q)) := by
  refine ⟨(isFinite_rounded_iff s hq).mpr h, ?_⟩
  rw [rational_eq, parts_rounded s hq h, sign_rounding s hq, snap_withSign s hq]

theorem mul (hx : Denotes x a) (hy : Denotes y b) (h : |a * b| < overflowBound) :
    Denotes (x * y) (snap (a * b)) := by
  obtain ⟨hx, rfl⟩ := hx
  obtain ⟨hy, rfl⟩ := hy
  have hnonneg : 0 ≤ magnitude (parts x) * magnitude (parts y) :=
    mul_nonneg (magnitude_nonneg _) (magnitude_nonneg _)
  rw [rational_eq, rational_eq, ← withSign_mul] at h ⊢
  rw [abs_withSign _ hnonneg] at h
  rw [mul_eq_rounded hx hy]
  exact rounded _ hnonneg h

theorem div (hx : Denotes x a) (hy : Denotes y b) (hb : b ≠ 0) (h : |a / b| < overflowBound) :
    Denotes (x / y) (snap (a / b)) := by
  obtain ⟨hx, rfl⟩ := hx
  obtain ⟨hy, rfl⟩ := hy
  have hnonneg : 0 ≤ magnitude (parts x) / magnitude (parts y) :=
    div_nonneg (magnitude_nonneg _) (magnitude_nonneg _)
  have hne : magnitude (parts y) ≠ 0 := by
    intro hzero
    rw [rational_eq, hzero] at hb
    cases hs : sign (parts y) <;> rw [hs] at hb
    · exact hb neg_zero
    · exact hb rfl
  rw [rational_eq, rational_eq, ← withSign_div] at h ⊢
  rw [abs_withSign _ hnonneg] at h
  rw [div_eq_rounded hx hy hne]
  exact rounded _ hnonneg h

theorem magnitude_eq (h : Denotes x a) : magnitude (parts x) = |a| := by
  rw [← h.2, rational_eq, abs_withSign _ (magnitude_nonneg _)]

theorem abs_lt_overflowBound (h : Denotes x a) : |a| < overflowBound :=
  h.magnitude_eq.symm.trans_lt (magnitude_lt_overflowBound h.1)

theorem exists_eq (h : Denotes x a) : ∃ s, x = Number.rounded s |a| ∧ withSign s |a| = a := by
  obtain ⟨hx, rfl⟩ := h
  refine ⟨sign (parts x), ?_, ?_⟩ <;> rw [rational_eq, abs_withSign _ (magnitude_nonneg _)]
  exact eq_rounded hx

theorem eq_of_ne_zero (hx : Denotes x a) (hy : Denotes y a) (ha : a ≠ 0) : x = y := by
  obtain ⟨s, hrounded, hs⟩ := hx.exists_eq
  obtain ⟨s', hrounded', hs'⟩ := hy.exists_eq
  have hsame : s = s' := by
    have hpos := abs_pos.mpr ha
    cases s <;> cases s' <;> simp only [withSign] at hs hs' <;> first | rfl | linarith
  rw [hrounded, hrounded', hsame]

theorem of_eq {s : Sign} (hx : x = Number.rounded s |a|) (hs : withSign s |a| = a)
    (h : |a| < overflowBound) : Denotes x (snap a) := by
  have hrounded := rounded s (abs_nonneg a) h
  rwa [← hx, hs] at hrounded

theorem exists_normalize_eq (n e : ℤ) :
    ∃ s, ofParts (UnpackedFloat.normalize .binary64 n e .positive) =
        Number.rounded s |(n : ℚ) * 2 ^ e| ∧
      withSign s |(n : ℚ) * 2 ^ e| = n * 2 ^ e := by
  have hround : ∀ (s : Sign) (m : ℕ), 0 < m → (s.apply m : ℤ) = n →
      ∃ s', ofParts (UnpackedFloat.round .binary64 s m e) = Number.rounded s' |(n : ℚ) * 2 ^ e| ∧
        withSign s' |(n : ℚ) * 2 ^ e| = n * 2 ^ e := by
    rintro s m hm rfl
    have hnonneg : (0 : ℚ) ≤ m * 2 ^ e := mul_nonneg (Nat.cast_nonneg m) (zpow_pos two_pos e).le
    rw [← withSign_apply, abs_withSign s hnonneg]
    exact ⟨s, congrArg ofParts (round_eq_rounding s e hm), rfl⟩
  unfold UnpackedFloat.normalize
  rcases lt_trichotomy n 0 with hn | rfl | hn
  · rw [compare_lt_iff_lt.mpr hn]
    exact hround .negative (-n).toNat (by omega) (by rw [Sign.apply]; omega)
  · rw [compare_eq_iff_eq.mpr rfl, Int.cast_zero, zero_mul, abs_zero]
    exact ⟨.positive, (rounded_zero .positive).symm, rfl⟩
  · rw [compare_gt_iff_gt.mpr hn]
    exact hround .positive n.toNat (by omega) (by rw [Sign.apply]; omega)

theorem decreaseExponent {m : ℕ} {e least : ℤ} (h : least ≤ e) :
    ((UnpackedFloat.decreaseExponent m e least).1 : ℚ) * 2 ^ least = m * 2 ^ e := by
  rw [UnpackedFloat.decreaseExponent, Nat.shiftLeft_eq, Nat.cast_mul, mul_assoc, Nat.cast_pow,
    Nat.cast_ofNat, ← zpow_natCast, ← zpow_add₀ two_ne_zero]
  congr 2
  omega

theorem exists_ofParts_eq (h : Denotes x a) {p : UnpackedFloat} (hp : parts x = p) :
    ∃ s, ofParts p = Number.rounded s |a| ∧ withSign s |a| = a := by
  rw [← hp, ofParts_parts]
  exact h.exists_eq

theorem exists_add_eq (hx : Denotes x a) (hy : Denotes y b) :
    ∃ s, x + y = Number.rounded s |a + b| ∧ withSign s |a + b| = a + b := by
  change ∃ s, ofParts (UnpackedFloat.add .binary64 (parts x) (parts y)) = _ ∧ _
  rcases hx.parts_cases with ⟨⟨s, hs⟩, rfl⟩ | ⟨s, m, e, hm, hs, -, -, rfl⟩ <;>
    rcases hy.parts_cases with ⟨⟨s', hs'⟩, rfl⟩ | ⟨s', m', e', hm', hs', -, -, rfl⟩
  · rw [hs, hs', add_zero, UnpackedFloat.add]
    split <;> exact (of_parts_zero (parts_ofParts_zero _)).exists_eq
  · rw [hs, hs', zero_add]
    exact hy.exists_ofParts_eq hs'
  · rw [hs, hs', add_zero]
    exact hx.exists_ofParts_eq hs
  · have hleft := decreaseExponent (m := m) (min_le_left e e')
    have hright := decreaseExponent (m := m') (min_le_right e e')
    rw [hs, hs', UnpackedFloat.add]
    dsimp only
    generalize (UnpackedFloat.decreaseExponent m e (min e e')).1 = k at hleft
    generalize (UnpackedFloat.decreaseExponent m' e' (min e e')).1 = k' at hright
    rw [← withSign_apply, ← withSign_apply, ← hleft, ← hright, withSign_apply, withSign_apply,
      ← add_mul, ← Int.cast_add]
    exact exists_normalize_eq _ _

theorem exists_sub_eq (hx : Denotes x a) (hy : Denotes y b) :
    ∃ s, x - y = Number.rounded s |a - b| ∧ withSign s |a - b| = a - b := by
  change ∃ s, ofParts (UnpackedFloat.sub .binary64 (parts x) (parts y)) = _ ∧ _
  rcases hx.parts_cases with ⟨⟨s, hs⟩, rfl⟩ | ⟨s, m, e, hm, hs, -, -, rfl⟩ <;>
    rcases hy.parts_cases with ⟨⟨s', hs'⟩, rfl⟩ | ⟨s', m', e', hm', hs', hcan, he, rfl⟩
  · rw [hs, hs', sub_zero, UnpackedFloat.sub]
    split <;> exact (of_parts_zero (parts_ofParts_zero _)).exists_eq
  · have hflip : -((s'.apply m' : ℤ) * 2 ^ e' : ℚ) = withSign (-s') (m' * 2 ^ e') := by
      rw [withSign_apply]
      cases s' <;> simp [Sign.apply]
    have hparts : Denotes (ofParts (.finite (-s') m' e' hm')) (withSign (-s') (m' * 2 ^ e')) :=
      of_parts_finite (parts_ofParts_finite (-s') hm' hcan he)
    rw [hs, hs', zero_sub, hflip]
    exact hparts.exists_eq
  · rw [hs, hs', sub_zero]
    exact hx.exists_ofParts_eq hs
  · have hleft := decreaseExponent (m := m) (min_le_left e e')
    have hright := decreaseExponent (m := m') (min_le_right e e')
    rw [hs, hs', UnpackedFloat.sub]
    dsimp only
    generalize (UnpackedFloat.decreaseExponent m e (min e e')).1 = k at hleft
    generalize (UnpackedFloat.decreaseExponent m' e' (min e e')).1 = k' at hright
    rw [← withSign_apply, ← withSign_apply, ← hleft, ← hright, withSign_apply, withSign_apply,
      ← sub_mul, ← Int.cast_sub]
    exact exists_normalize_eq _ _

theorem add (hx : Denotes x a) (hy : Denotes y b) (h : |a + b| < overflowBound) :
    Denotes (x + y) (snap (a + b)) := by
  obtain ⟨s, heq, hs⟩ := hx.exists_add_eq hy
  exact of_eq heq hs h

theorem sub (hx : Denotes x a) (hy : Denotes y b) (h : |a - b| < overflowBound) :
    Denotes (x - y) (snap (a - b)) := by
  obtain ⟨s, heq, hs⟩ := hx.exists_sub_eq hy
  exact of_eq heq hs h

theorem sub_of_isFinite (hx : Denotes x a) (hy : Denotes y b) (h : (x - y).isFinite = true) :
    Denotes (x - y) (snap (a - b)) := by
  obtain ⟨s, heq, -⟩ := hx.exists_sub_eq hy
  rw [heq, isFinite_rounded_iff s (abs_nonneg _)] at h
  exact hx.sub hy h

theorem add_of_isFinite (hx : Denotes x a) (hy : Denotes y b) (h : (x + y).isFinite = true) :
    Denotes (x + y) (snap (a + b)) := by
  obtain ⟨s, heq, -⟩ := hx.exists_add_eq hy
  rw [heq, isFinite_rounded_iff s (abs_nonneg _)] at h
  exact hx.add hy h

theorem not_lt_zero (h : Denotes x a) (ha : 0 ≤ a) : ¬x < 0.0 := by
  rw [lt_zero_iff]
  rcases h.parts_cases with ⟨⟨s, hs⟩, -⟩ | ⟨s, m, e, hm, hs, -, -, rfl⟩ <;> rw [hs]
  · cases s <;> decide
  · cases s with
    | positive => simp [UnpackedFloat.compare]
    | negative =>
      have hneg : ((Sign.negative.apply m : ℤ) : ℚ) * 2 ^ e < 0 :=
        mul_neg_of_neg_of_pos (by simpa [Sign.apply] using hm) (zpow_pos two_pos e)
      exact absurd ha (not_le.mpr hneg)

theorem of_lt_of_lt (h₀ : 0.0 < x) (h₁ : x < 1.0) : ∃ a, Denotes x a ∧ 0 < a ∧ a < 1 := by
  have hzero : parts 0.0 = .zero .positive := rfl
  have hone : parts 1.0 = .finite .positive (2 ^ 52) (-52) (by norm_num) := rfl
  rw [lt_iff, hzero] at h₀
  rw [lt_iff, hone] at h₁
  cases hx : parts x with
  | notANumber =>
    rw [hx] at h₁
    cases h₁
  | infinity s =>
    rw [hx] at h₀ h₁
    cases s with
    | negative => cases h₀
    | positive => cases h₁
  | zero s =>
    rw [hx] at h₀
    cases h₀
  | finite s m e hm =>
    rw [hx] at h₀ h₁
    cases s with
    | negative => cases h₀
    | positive =>
      have hcan := (canonical_of_parts hx).1
      have hpow : (0 : ℚ) < 2 ^ e := zpow_pos two_pos e
      refine ⟨_, of_parts_finite hx, mul_pos (Nat.cast_pos.mpr hm) hpow, ?_⟩
      have hcompare : e < -52 ∨ e = -52 ∧ m < 2 ^ 52 := by
        have hlt := Option.some.inj h₁
        rw [Ordering.then_eq_lt, compare_lt_iff_lt, compare_eq_iff_eq, compare_lt_iff_lt] at hlt
        exact hlt
      have hm' : (m : ℚ) < 2 ^ 53 := by exact_mod_cast hcan.lt
      rcases hcompare with he | ⟨rfl, hless⟩
      · calc (m : ℚ) * 2 ^ e < 2 ^ 53 * 2 ^ e := mul_lt_mul_of_pos_right hm' hpow
          _ ≤ 2 ^ 53 * 2 ^ (-53 : ℤ) := by
              refine mul_le_mul_of_nonneg_left ?_ (by norm_num)
              exact zpow_le_zpow_right₀ one_le_two (by omega)
          _ = 1 := by norm_num
      · have hless' : (m : ℚ) < 2 ^ 52 := by exact_mod_cast hless
        calc (m : ℚ) * 2 ^ (-52 : ℤ) < 2 ^ 52 * 2 ^ (-52 : ℤ) := mul_lt_mul_of_pos_right hless' hpow
          _ = 1 := by norm_num

end Denotes

theorem denotes_one : Denotes 1.0 1 :=
  .of_value (s := .positive) (m := 2 ^ 52) (e := -52) rfl (by norm_num [withSign])

theorem denotes_two : Denotes 2.0 2 :=
  .of_value (s := .positive) (m := 2 ^ 52) (e := -51) rfl (by norm_num [withSign])

namespace Denotes

variable {x : Float} {a : ℚ}

theorem zero_times (hx : Denotes x a) : Denotes (0.0 * x) 0 := by
  have h := mul (of_parts_zero (x := 0.0) (s := .positive) rfl) hx
  rw [zero_mul, abs_zero, snap_zero] at h
  exact h overflowBound_pos

theorem one_times (hx : Denotes x a) : 1.0 * x = x := by
  have hone : parts 1.0 = .finite .positive (2 ^ 52) (-52) (by norm_num) := rfl
  have hsign : ∀ s : Sign, Sign.positive * s = s := by rintro (_ | _) <;> rfl
  have hmagnitude : magnitude (.finite .positive (2 ^ 52) (-52) (by norm_num)) = 1 := by
    norm_num
  rw [mul_eq_rounded denotes_one.1 hx.1, hone, hmagnitude, sign, hsign, one_mul, ← eq_rounded hx.1]

end Denotes

end Tween.Number
