import Tween.Proofs.Signed

namespace Tween.Number

open Float.Model (UnpackedFloat Format)
open Float.Model.UnpackedFloat

theorem snap_nonneg {x : ℚ} (hx : 0 ≤ x) : 0 ≤ snap x :=
  snap_zero.symm.trans_le (snap_mono hx)

/-- A short mantissa with an exponent in range is not changed by rounding. -/
theorem snap_mul_zpow {n e : ℤ} (hn : n.natAbs < 2 ^ 53) (he : -1074 ≤ e) :
    snap (n * 2 ^ e) = n * 2 ^ e := by
  have hpow : (0 : ℚ) < 2 ^ e := zpow_pos two_pos e
  rcases le_or_gt 0 n with h | h
  · obtain ⟨m, rfl⟩ := Int.eq_ofNat_of_zero_le h
    rw [Int.cast_natCast, snap, if_neg (not_lt.mpr (mul_nonneg (Nat.cast_nonneg m) hpow.le)),
      magnitude_rounding_of_lt .positive (by omega) he]
  · obtain ⟨m, rfl⟩ : ∃ m : ℕ, n = -m := ⟨n.natAbs, by omega⟩
    have hneg : ((-m : ℤ) : ℚ) * 2 ^ e < 0 := mul_neg_of_neg_of_pos (Int.cast_lt_zero.mpr h) hpow
    rw [snap, if_pos hneg, Int.cast_neg, Int.cast_natCast, neg_mul, neg_neg,
      magnitude_rounding_of_lt .positive (by omega) he]

theorem snap_of_dyadic {x : ℚ} (n : ℤ) (k : ℕ) (hx : x = n / 2 ^ k) (hn : n.natAbs < 2 ^ 53)
    (hk : k ≤ 1074) : snap x = x := by
  have h := snap_mul_zpow hn (e := -k) (by omega)
  rwa [zpow_neg, zpow_natCast, ← div_eq_mul_inv, ← hx] at h

/-- A double is less than another one by its exponent, or by its mantissa at the same one. -/
theorem mul_zpow_lt_iff {m m' : ℕ} {e e' : ℤ} (h : Canonical m e) (h' : Canonical m' e') :
    (m : ℚ) * 2 ^ e < m' * 2 ^ e' ↔ (compare e e').then (compare m m') = .lt := by
  have hless : ∀ {k k' : ℕ} {i i' : ℤ}, Canonical k i → Canonical k' i' → i < i' →
      (k : ℚ) * 2 ^ i < k' * 2 ^ i' := by
    intro k k' i i' hk hk' hlt
    have hleast := hk.least
    have hfull : (2 : ℚ) ^ 52 ≤ k' := by exact_mod_cast hk'.full.resolve_right (by omega)
    have hshort : (k : ℚ) < 2 ^ 53 := by exact_mod_cast hk.lt
    calc (k : ℚ) * 2 ^ i < 2 ^ 53 * 2 ^ i := mul_lt_mul_of_pos_right hshort (zpow_pos two_pos i)
      _ = 2 ^ 52 * 2 ^ (i + 1) := by rw [zpow_add_one₀ two_ne_zero]; ring
      _ ≤ k' * 2 ^ i' := mul_le_mul hfull (zpow_le_zpow_right₀ one_le_two hlt)
          (zpow_pos two_pos _).le (Nat.cast_nonneg k')
  rw [Ordering.then_eq_lt, compare_lt_iff_lt, compare_eq_iff_eq, compare_lt_iff_lt]
  rcases lt_trichotomy e e' with he | rfl | he
  · exact iff_of_true (hless h h' he) (.inl he)
  · rw [mul_lt_mul_iff_left₀ (zpow_pos two_pos e), Nat.cast_lt]
    simp
  · refine iff_of_false (hless h' h he).le.not_gt ?_
    omega

/-- Positive doubles compare as their exponents do, and their mantissas after them. -/
theorem compare_mul_zpow {m m' : ℕ} {e e' : ℤ} (h : Canonical m e) (h' : Canonical m' e') :
    compare ((m : ℚ) * 2 ^ e) (m' * 2 ^ e') = (compare e e').then (compare m m') := by
  have hless := mul_zpow_lt_iff h h'
  have hgreater := mul_zpow_lt_iff h' h
  have hswap : (compare e' e).then (compare m' m) = ((compare e e').then (compare m m')).swap := by
    rw [Ordering.swap_then, ← Std.OrientedCmp.eq_swap, ← Std.OrientedCmp.eq_swap]
  rw [hswap, Ordering.swap_eq_lt] at hgreater
  rcases lt_trichotomy ((m : ℚ) * 2 ^ e) (m' * 2 ^ e') with hlt | heq | hgt
  · rw [hless.mp hlt, compare_lt_iff_lt.mpr hlt]
  · rw [compare_eq_iff_eq.mpr heq]
    cases hcmp : (compare e e').then (compare m m') with
    | eq => rfl
    | lt => exact absurd (hless.mpr hcmp) heq.not_lt
    | gt => exact absurd (hgreater.mpr hcmp) heq.symm.not_lt
  · rw [hgreater.mp hgt, compare_gt_iff_gt.mpr hgt]

theorem compare_neg_neg (a b : ℚ) : compare (-a) (-b) = compare b a := by
  rw [LinearOrder.compare_eq_compareOfLessAndEq, LinearOrder.compare_eq_compareOfLessAndEq]
  simp only [compareOfLessAndEq, neg_lt_neg_iff, neg_inj, eq_comm]

def grain : ℚ := 1 / 2 ^ 46

theorem grain_pos : 0 < grain := by
  norm_num [grain]

/-- Short multiples of a power of two are doubles, so the nearest double is not beyond the next one. -/
theorem abs_snap_sub_le_zpow {x : ℚ} {k : ℤ} (hk : -1074 ≤ k) (hx : |x| ≤ 2 ^ 52 * 2 ^ k) :
    |snap x - x| ≤ 2 ^ k := by
  have hunit : (0 : ℚ) < 2 ^ k := zpow_pos two_pos k
  obtain ⟨hlow, hhigh⟩ := abs_le.mp hx
  have hfloor := Int.floor_le (x / 2 ^ k)
  have hceil := (Int.lt_floor_add_one (x / 2 ^ k)).le
  generalize ⌊x / 2 ^ k⌋ = n at hfloor hceil
  rw [le_div_iff₀ hunit] at hfloor
  rw [div_le_iff₀ hunit] at hceil
  have hsize : n.natAbs < 2 ^ 53 ∧ (n + 1).natAbs < 2 ^ 53 := by
    have h₁ : (n : ℚ) ≤ 2 ^ 52 := le_of_mul_le_mul_right (hfloor.trans hhigh) hunit
    have h₂ : (-2 ^ 52 : ℚ) ≤ n + 1 := le_of_mul_le_mul_right (by linarith) hunit
    have h₁' : n ≤ 2 ^ 52 := by exact_mod_cast h₁
    have h₂' : -2 ^ 52 ≤ n + 1 := by exact_mod_cast h₂
    omega
  have hbelow := snap_mono hfloor
  have habove : snap x ≤ snap ((n + 1 : ℤ) * 2 ^ k) := snap_mono (by push_cast; exact hceil)
  rw [snap_mul_zpow hsize.1 hk] at hbelow
  rw [snap_mul_zpow hsize.2 hk] at habove
  push_cast at habove
  rw [abs_le]
  constructor <;> linarith

theorem abs_snap_sub_le {x : ℚ} (hx : |x| ≤ 64) : |snap x - x| ≤ grain := by
  have h := abs_snap_sub_le_zpow (k := -46) (by decide) (hx.trans (by norm_num))
  rwa [show (2 : ℚ) ^ (-46 : ℤ) = grain by norm_num [grain]] at h

theorem abs_snap_sub_le_one {x : ℚ} (hx : |x| ≤ 2 ^ 52) : |snap x - x| ≤ 1 := by
  have h := abs_snap_sub_le_zpow (k := 0) (by decide) (hx.trans (by norm_num))
  rwa [zpow_zero] at h

theorem lt_overflowBound_of_abs_le {x : ℚ} (hx : |x| ≤ 2 ^ 52) : |x| < overflowBound :=
  abs_lt_overflowBound (k := -2 ^ 52) (n := 2 ^ 52) (by decide) (by decide)
    (by push_cast; exact abs_le.mp hx)

namespace Denotes

variable {x y : Float} {a b : ℚ}

theorem compare_eq (hx : Denotes x a) (hy : Denotes y b) :
    (parts x).compare (parts y) = some (compare a b) := by
  have hpos : ∀ {m : ℕ} {e : ℤ}, 0 < m → (0 : ℚ) < m * 2 ^ e := fun hm =>
    mul_pos (Nat.cast_pos.mpr hm) (zpow_pos two_pos _)
  have hless : ∀ {p q : ℚ}, p < q → some .lt = some (compare p q) := fun h =>
    congrArg some (compare_lt_iff_lt.mpr h).symm
  have hgreater : ∀ {p q : ℚ}, q < p → some .gt = some (compare p q) := fun h =>
    congrArg some (compare_gt_iff_gt.mpr h).symm
  -- Zeros have no digits to compare; of two others the signs decide, or the digits.
  rcases hx.parts_cases with ⟨⟨s, hs⟩, rfl⟩ | ⟨s, m, e, hm, hs, hcan, -, rfl⟩ <;>
    rcases hy.parts_cases with ⟨⟨s', hs'⟩, rfl⟩ | ⟨s', m', e', hm', hs', hcan', -, rfl⟩ <;>
    rw [hs, hs']
  · exact congrArg some (compare_eq_iff_eq.mpr rfl).symm
  · rw [← withSign_apply]
    cases s' with
    | negative => exact hgreater (neg_lt_zero.mpr (hpos hm'))
    | positive => exact hless (hpos hm')
  · rw [← withSign_apply]
    cases s with
    | negative => exact hless (neg_lt_zero.mpr (hpos hm))
    | positive => exact hgreater (hpos hm)
  · rw [← withSign_apply, ← withSign_apply]
    cases s <;> cases s'
    · rw [UnpackedFloat.compare, ← compare_mul_zpow hcan hcan', ← Std.OrientedCmp.eq_swap]
      exact congrArg some (compare_neg_neg _ _).symm
    · exact hless ((neg_lt_zero.mpr (hpos hm)).trans (hpos hm'))
    · exact hgreater ((neg_lt_zero.mpr (hpos hm')).trans (hpos hm))
    · rw [UnpackedFloat.compare, ← compare_mul_zpow hcan hcan']
      rfl

theorem lt_iff (hx : Denotes x a) (hy : Denotes y b) : x < y ↔ a < b := by
  rw [Number.lt_iff, hx.compare_eq hy, Option.some_inj, compare_lt_iff_lt]

theorem le_iff (hx : Denotes x a) (hy : Denotes y b) : x ≤ y ↔ a ≤ b := by
  rw [Number.le_iff, UnpackedFloat.le, hx.compare_eq hy, Option.any_some,
    Ordering.isLE_iff_ne_gt]
  exact compare_le_iff_le

theorem beq_iff (hx : Denotes x a) (hy : Denotes y b) : (x == y) = true ↔ a = b := by
  change ((parts x).compare (parts y) == some .eq) = true ↔ _
  rw [hx.compare_eq hy, beq_iff_eq, Option.some_inj, compare_eq_iff_eq]

theorem abs (h : Denotes x a) : Denotes x.abs |a| := by
  change Denotes (ofParts (parts x).abs) |a|
  rcases h.parts_cases with ⟨⟨s, hs⟩, rfl⟩ | ⟨s, m, e, hm, hs, hcan, he, rfl⟩ <;> rw [hs]
  · rw [abs_zero]
    exact of_parts_zero (parts_ofParts_zero .positive)
  · refine of_value (parts_ofParts_finite .positive hm hcan he) ?_
    rw [← withSign_apply, abs_withSign s (mul_nonneg (Nat.cast_nonneg m) (zpow_pos two_pos e).le)]
    rfl

theorem isFinite_of_beq (hx : Denotes x a) (h : (y == x) = true) : y.isFinite = true := by
  change ((parts y).compare (parts x) == some .eq) = true at h
  change (parts y).isFinite = true
  cases hy : parts y with
  | zero | finite => rfl
  | notANumber =>
    rw [hy] at h
    cases h
  | infinity s =>
    rw [hy] at h
    rcases hx.parts_cases with ⟨⟨s', hs⟩, -⟩ | ⟨s', m, e, hm, hs, -⟩ <;> rw [hs] at h <;>
      cases s <;> cases h

theorem beq_zero (h : Denotes x a) (ha : a ≠ 0) : (x == 0.0) = false :=
  Bool.eq_false_iff.mpr (mt (h.beq_iff (of_parts_zero (s := .positive) rfl)).mp ha)

end Denotes

/-- Whether a double is a number within `n` grains of another one, which is up to `k`. -/
def Near (x : Float) (q : ℚ) (k n : ℕ) : Prop :=
  ∃ a, Denotes x a ∧ |a - q| ≤ n * grain ∧ |q| ≤ k

def Within (x : Float) (k n : ℤ) : Prop :=
  ∃ a, Denotes x a ∧ a ∈ Set.Icc (k : ℚ) n

namespace Near

variable {x y : Float} {q r : ℚ} {j k n m : ℕ}

theorem of_denotes (h : Denotes x q) (hq : |q| ≤ k) : Near x q k 0 :=
  ⟨q, h, by simp, hq⟩

theorem bounded (h : Near x q k n) (hq : |q| ≤ j) : Near x q j n := by
  obtain ⟨a, ha, haq, -⟩ := h
  exact ⟨a, ha, haq, hq⟩

theorem mono (h : Near x q k n) (hqr : q = r) (hn : n ≤ m) : Near x r k m := by
  obtain ⟨a, ha, haq, hq⟩ := h
  subst hqr
  refine ⟨a, ha, haq.trans (mul_le_mul_of_nonneg_right ?_ grain_pos.le), hq⟩
  exact_mod_cast hn

theorem of_snap {a : ℚ} (h : |a| < overflowBound → Denotes x (snap a)) (hsize : |a| ≤ 64)
    (hq : |a - q| ≤ n * grain) (hk : |q| ≤ k) : Near x q k (n + 1) := by
  refine ⟨snap a, h (lt_overflowBound_of_abs_le (hsize.trans (by norm_num))), ?_, hk⟩
  have hsnap := abs_snap_sub_le hsize
  have htri := abs_sub_le (snap a) a q
  push_cast
  linarith

theorem abs_le_add_one {a : ℚ} (ha : |a - q| ≤ n * grain) (hq : |q| ≤ k) (hn : n ≤ 2 ^ 46) :
    |a| ≤ k + 1 := by
  have hn' : (n : ℚ) * grain ≤ 1 := by
    have : (n : ℚ) ≤ 2 ^ 46 := by exact_mod_cast hn
    rw [grain, mul_one_div, div_le_one (by positivity)]
    exact this
  have htri := abs_add_le (a - q) q
  rw [sub_add_cancel] at htri
  linarith

theorem add (hx : Near x q j n) (hy : Near y r k m)
    (h : j + k ≤ 62 ∧ n ≤ 2 ^ 46 ∧ m ≤ 2 ^ 46) : Near (x + y) (q + r) (j + k) (n + m + 1) := by
  obtain ⟨a, ha, haq, hq⟩ := hx
  obtain ⟨b, hb, hbr, hr⟩ := hy
  have hsize : |a + b| ≤ 64 := by
    have := abs_add_le a b
    have := abs_le_add_one haq hq h.2.1
    have := abs_le_add_one hbr hr h.2.2
    have : (j + k : ℚ) ≤ 62 := by exact_mod_cast h.1
    linarith
  refine of_snap (ha.add hb) hsize ?_ ?_
  · calc |a + b - (q + r)| = |(a - q) + (b - r)| := by ring_nf
      _ ≤ |a - q| + |b - r| := abs_add_le _ _
      _ ≤ (n + m : ℕ) * grain := by push_cast; linarith
  · push_cast
    exact (abs_add_le q r).trans (add_le_add hq hr)

theorem sub (hx : Near x q j n) (hy : Near y r k m)
    (h : j + k ≤ 62 ∧ n ≤ 2 ^ 46 ∧ m ≤ 2 ^ 46) : Near (x - y) (q - r) (j + k) (n + m + 1) := by
  obtain ⟨a, ha, haq, hq⟩ := hx
  obtain ⟨b, hb, hbr, hr⟩ := hy
  have hsize : |a - b| ≤ 64 := by
    have := abs_sub a b
    have := abs_le_add_one haq hq h.2.1
    have := abs_le_add_one hbr hr h.2.2
    have : (j + k : ℚ) ≤ 62 := by exact_mod_cast h.1
    linarith
  refine of_snap (ha.sub hb) hsize ?_ ?_
  · calc |a - b - (q - r)| = |(a - q) - (b - r)| := by ring_nf
      _ ≤ |a - q| + |b - r| := abs_sub _ _
      _ ≤ (n + m : ℕ) * grain := by push_cast; linarith
  · push_cast
    exact (abs_sub q r).trans (add_le_add hq hr)

theorem mul (hx : Near x q j n) (hy : Near y r k m)
    (h : (j + 1) * (k + 1) ≤ 64 ∧ n ≤ 2 ^ 46 ∧ m ≤ 2 ^ 46) :
    Near (x * y) (q * r) (j * k) ((k + 1) * n + j * m + 1) := by
  obtain ⟨a, ha, haq, hq⟩ := hx
  obtain ⟨b, hb, hbr, hr⟩ := hy
  have hb' := abs_le_add_one hbr hr h.2.2
  have hsize : |a * b| ≤ 64 := by
    rw [abs_mul]
    have := mul_le_mul (abs_le_add_one haq hq h.2.1) hb' (abs_nonneg b) (by positivity)
    have : ((j + 1) * (k + 1) : ℚ) ≤ 64 := by exact_mod_cast h.1
    linarith
  refine of_snap (ha.mul hb) hsize ?_ ?_
  · have hleft : |(a - q) * b| ≤ n * grain * (k + 1) := by
      rw [abs_mul]
      exact mul_le_mul haq hb' (abs_nonneg b) (mul_nonneg (Nat.cast_nonneg n) grain_pos.le)
    have hright : |q * (b - r)| ≤ j * (m * grain) := by
      rw [abs_mul]
      exact mul_le_mul hq hbr (abs_nonneg _) (Nat.cast_nonneg j)
    calc |a * b - q * r| = |(a - q) * b + q * (b - r)| := by ring_nf
      _ ≤ |(a - q) * b| + |q * (b - r)| := abs_add_le _ _
      _ ≤ ((k + 1) * n + j * m : ℕ) * grain := by push_cast; linarith
  · rw [abs_mul]
    push_cast
    exact mul_le_mul hq hr (abs_nonneg r) (Nat.cast_nonneg j)

end Near

namespace Within

variable {x y : Float} {j k m n : ℤ}

theorem of_denotes {a : ℚ} (h : Denotes x a) (ha : a ∈ Set.Icc (k : ℚ) n) : Within x k n :=
  ⟨a, h, ha⟩

theorem mono (h : Within x k n) (hk : j ≤ k) (hn : n ≤ m) : Within x j m := by
  obtain ⟨a, ha, hmem⟩ := h
  exact ⟨a, ha, Set.Icc_subset_Icc (Int.cast_le.mpr hk) (Int.cast_le.mpr hn) hmem⟩

theorem of_snap {a : ℚ} (h : |a| < overflowBound → Denotes x (snap a))
    (ha : a ∈ Set.Icc (k : ℚ) n) (hk : k.natAbs < 2 ^ 53) (hn : n.natAbs < 2 ^ 53) :
    Within x k n :=
  ⟨snap a, h (abs_lt_overflowBound hk hn ha), snap_mem_Icc hk hn ha⟩

theorem add (hx : Within x j m) (hy : Within y k n) (hlow : (j + k).natAbs < 2 ^ 53)
    (hhigh : (m + n).natAbs < 2 ^ 53) : Within (x + y) (j + k) (m + n) := by
  obtain ⟨a, ha, hmem⟩ := hx
  obtain ⟨b, hb, hmem'⟩ := hy
  refine of_snap (ha.add hb) ?_ hlow hhigh
  push_cast
  exact ⟨add_le_add hmem.1 hmem'.1, add_le_add hmem.2 hmem'.2⟩

theorem sub (hx : Within x j m) (hy : Within y k n) (hlow : (j - n).natAbs < 2 ^ 53)
    (hhigh : (m - k).natAbs < 2 ^ 53) : Within (x - y) (j - n) (m - k) := by
  obtain ⟨a, ha, hmem⟩ := hx
  obtain ⟨b, hb, hmem'⟩ := hy
  refine of_snap (ha.sub hb) ?_ hlow hhigh
  push_cast
  exact ⟨sub_le_sub hmem.1 hmem'.2, sub_le_sub hmem.2 hmem'.1⟩

theorem mul (hx : Within x 0 m) (hy : Within y 0 n) (hhigh : (m * n).natAbs < 2 ^ 53) :
    Within (x * y) 0 (m * n) := by
  obtain ⟨a, ha, hmem⟩ := hx
  obtain ⟨b, hb, hmem'⟩ := hy
  rw [Int.cast_zero] at hmem hmem'
  refine of_snap (ha.mul hb) ?_ (by decide) hhigh
  push_cast
  exact ⟨mul_nonneg hmem.1 hmem'.1, mul_le_mul hmem.2 hmem'.2 hmem'.1 (hmem.1.trans hmem.2)⟩

theorem div {b : ℚ} (hx : Within x 0 n) (hy : Denotes y b) (hb : 1 ≤ b) (hn : n.natAbs < 2 ^ 53) :
    Within (x / y) 0 n := by
  obtain ⟨a, ha, h₀, h₁⟩ := hx
  rw [Int.cast_zero] at h₀
  refine of_snap (ha.div hy (by linarith)) ⟨?_, ?_⟩ (by decide) hn
  · rw [Int.cast_zero]
    exact div_nonneg h₀ (by linarith)
  · exact (div_le_self h₀ hb).trans h₁

theorem exists_truncate (h : Within x k n) : ∃ i, truncate x = .ok i := by
  obtain ⟨a, ha, -⟩ := h
  exact ⟨_, truncate_eq ha.1⟩

end Within

end Tween.Number
