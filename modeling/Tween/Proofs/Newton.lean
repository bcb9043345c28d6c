import Tween.Proofs.UnitInterval

namespace Tween

open Number

namespace Bezier

theorem denotes_zero : Denotes 0.0 0 :=
  .of_parts_zero (s := .positive) rfl

theorem denotes_quarter : Denotes 0.25 (1 / 4) :=
  .of_value (s := .positive) (m := 2 ^ 52) (e := -54) rfl (by norm_num [withSign])

theorem denotes_tenth : Denotes 0.1 (7205759403792794 / 2 ^ 56) :=
  .of_value (s := .positive) (m := 7205759403792794) (e := -56) rfl (by norm_num [withSign])

theorem denotes_three : Denotes 3.0 3 :=
  .of_value (s := .positive) (m := 3 * 2 ^ 51) (e := -51) rfl (by norm_num [withSign])

theorem denotes_six : Denotes 6.0 6 :=
  .of_value (s := .positive) (m := 3 * 2 ^ 51) (e := -50) rfl (by norm_num [withSign])

theorem denotes_tolerance : Denotes tolerance (4722366482869645 / 2 ^ 72) :=
  .of_value (s := .positive) (m := 4722366482869645) (e := -72) rfl (by norm_num [withSign])

variable {t p₁ p₂ : Float} {τ a b : ℚ}

theorem near_parameter (ht : Denotes t τ) (h₀ : 0 ≤ τ) (h₁ : τ ≤ 7 / 5) :
    Near t τ 2 0 ∧ Near (1.0 - t) (1 - τ) 1 1 := by
  have ht' : Near t τ 2 0 :=
    .of_denotes ht (abs_le.mpr ⟨by push_cast; linarith, by push_cast; linarith⟩)
  have hone : Near 1.0 1 1 0 := .of_denotes denotes_one (by norm_num)
  have hu : |1 - τ| ≤ (1 : ℕ) := abs_le.mpr ⟨by push_cast; linarith, by push_cast; linarith⟩
  exact ⟨ht', (hone.sub ht' (by decide)).bounded hu⟩

theorem near_point (ht : Denotes t τ) (h₀ : 0 ≤ τ) (h₁ : τ ≤ 7 / 5) (hp₁ : Denotes p₁ a)
    (ha : |a| ≤ 1) (hp₂ : Denotes p₂ b) (hb : |b| ≤ 1) :
    ∃ k, Near (point t 0.0 p₁ p₂ 1.0)
      (3 * (1 - τ) ^ 2 * τ * a + 3 * (1 - τ) * τ ^ 2 * b + τ ^ 3) k 400 := by
  obtain ⟨ht', hu⟩ := near_parameter ht h₀ h₁
  have hzero : Near 0.0 0 0 0 := .of_denotes denotes_zero (by norm_num)
  have hone : Near 1.0 1 1 0 := .of_denotes denotes_one (by norm_num)
  have hthree : Near 3.0 3 3 0 := .of_denotes denotes_three (by norm_num)
  have ha' : Near p₁ a 1 0 := .of_denotes hp₁ (by exact_mod_cast ha)
  have hb' : Near p₂ b 1 0 := .of_denotes hp₂ (by exact_mod_cast hb)
  have h₃ := hthree.mul hu (by decide)
  have hfirst := ((hu.mul hu (by decide)).mul hu (by decide)).mul hzero (by decide)
  have hsecond := ((h₃.mul hu (by decide)).mul ht' (by decide)).mul ha' (by decide)
  have hthird := ((h₃.mul ht' (by decide)).mul ht' (by decide)).mul hb' (by decide)
  have hfourth := ((ht'.mul ht' (by decide)).mul ht' (by decide)).mul hone (by decide)
  have hsum := ((hfirst.add hsecond (by decide)).add hthird (by decide)).add hfourth (by decide)
  unfold point
  exact ⟨_, hsum.mono (by ring) (by decide)⟩

theorem near_slope (ht : Denotes t τ) (h₀ : 0 ≤ τ) (h₁ : τ ≤ 7 / 5) (hp₁ : Denotes p₁ a)
    (ha : |a| ≤ 1) (hp₂ : Denotes p₂ b) (hb : |b| ≤ 1) :
    ∃ k, Near (slope t p₁ p₂)
      (3 * (1 - τ) ^ 2 * a + 6 * (1 - τ) * τ * (b - a) + 3 * τ ^ 2 * (1 - b)) k 400 := by
  obtain ⟨ht', hu⟩ := near_parameter ht h₀ h₁
  have hone : Near 1.0 1 1 0 := .of_denotes denotes_one (by norm_num)
  have hthree : Near 3.0 3 3 0 := .of_denotes denotes_three (by norm_num)
  have hsix : Near 6.0 6 6 0 := .of_denotes denotes_six (by norm_num)
  have ha' : Near p₁ a 1 0 := .of_denotes hp₁ (by exact_mod_cast ha)
  have hb' : Near p₂ b 1 0 := .of_denotes hp₂ (by exact_mod_cast hb)
  have hfirst := ((hthree.mul hu (by decide)).mul hu (by decide)).mul ha' (by decide)
  have hsecond := ((hsix.mul hu (by decide)).mul ht' (by decide)).mul (hb'.sub ha' (by decide))
    (by decide)
  have hthird := ((hthree.mul ht' (by decide)).mul ht' (by decide)).mul (hone.sub hb' (by decide))
    (by decide)
  have hsum := (hfirst.add hsecond (by decide)).add hthird (by decide)
  unfold slope
  exact ⟨_, hsum.mono (by ring) (by decide)⟩

structure Region (x t : ℚ) : Prop where
  low : 9 / 10 * x ≤ t
  high : t ≤ 2 * x
  top : t ≤ 7 / 5

namespace Region

variable {x t : ℚ}

theorem self (h₀ : 0 ≤ x) (h₁ : x ≤ 1) : Region x x where
  low := by linarith
  high := by linarith
  top := by linarith

theorem nonneg (h : Region x t) (h₀ : 0 ≤ x) : 0 ≤ t :=
  (mul_nonneg (by norm_num) h₀).trans h.low

theorem low_step (h : Region x t) (h₀ : 0 ≤ x) (h₁ : x ≤ 1) :
    x / 10 ≤ (t - 9 / 10 * x) * (3 * t ^ 2 - 3 / 2 * t + 3 / 4) -
      (t ^ 3 - 3 / 4 * t ^ 2 + 3 / 4 * t - x) := by
  have ht := h.nonneg h₀
  have hhigh := h.high
  have htop := h.top
  -- For a given parameter this is linear in the first coordinate.
  rcases le_total 0 (9 / 40 + 27 / 20 * t - 27 / 10 * t ^ 2) with hslope | hslope
  · nlinarith [mul_nonneg (sub_nonneg.mpr hhigh) hslope, mul_nonneg ht (sq_nonneg (t - 3 / 50))]
  · have hcubic : 0 ≤ 9 / 40 + 27 / 20 * t - 69 / 20 * t ^ 2 + 2 * t ^ 3 := by
      nlinarith [mul_nonneg ht (sq_nonneg (t - 9 / 10)), sq_nonneg (t - 9 / 10)]
    nlinarith [mul_nonneg (sub_nonneg.mpr h₁) (neg_nonneg.mpr hslope)]

theorem high_step (h : Region x t) (h₀ : 0 ≤ x) :
    x / 10 ≤ (2 * x - t) * (3 * t ^ 2 - 3 / 2 * t + 3 / 4) +
      (t ^ 3 - 3 / 4 * t ^ 2 + 3 / 4 * t - x) := by
  have ht := h.nonneg h₀
  have hslope : 0 ≤ 2 / 5 - 3 * t + 6 * t ^ 2 := by nlinarith [sq_nonneg (t - 1 / 4)]
  have hrest : 0 ≤ t * (1 / 5 - 3 / 4 * t + t ^ 2) :=
    mul_nonneg ht (by nlinarith [sq_nonneg (t - 3 / 8)])
  nlinarith [mul_nonneg (sub_nonneg.mpr h.high) hslope]

theorem top_step (h : Region x t) (h₀ : 0 ≤ x) :
    1 / 10 ≤ (7 / 5 - t) * (3 * t ^ 2 - 3 / 2 * t + 3 / 4) +
      (t ^ 3 - 3 / 4 * t ^ 2 + 3 / 4 * t - x) := by
  have ht := h.nonneg h₀
  have hlow := h.low
  have htop := h.top
  have hcubic : 0 ≤ 19 / 20 - 289 / 90 * t + 99 / 20 * t ^ 2 - 2 * t ^ 3 := by
    nlinarith [mul_nonneg (sub_nonneg.mpr htop) (sq_nonneg (t - 2 / 5)), sq_nonneg (t - 9 / 20)]
  nlinarith

/-- A step that is off by little stays there, too, unless the first coordinate is next to zero. -/
theorem step {a b v : ℚ} (h : Region x t) (hx : 3 / 10 ^ 7 ≤ x) (h₁ : x ≤ 1)
    (ha : |a - (t ^ 3 - 3 / 4 * t ^ 2 + 3 / 4 * t - x)| ≤ 1 / 10 ^ 10)
    (hb : |b - (3 * t ^ 2 - 3 / 2 * t + 3 / 4)| ≤ 1 / 10 ^ 10)
    (hv : |v - (t - a / b)| ≤ 1 / 10 ^ 10) : Region x v := by
  have h₀ : 0 ≤ x := by linarith
  have ht := h.nonneg h₀
  have htop := h.top
  have hlow := h.low
  have hhigh := h.high
  have hd₁ : 9 / 16 ≤ 3 * t ^ 2 - 3 / 2 * t + 3 / 4 := by nlinarith [sq_nonneg (t - 1 / 4)]
  have hd₂ : 3 * t ^ 2 - 3 / 2 * t + 3 / 4 ≤ 5 := by nlinarith
  have hmargin := h.low_step h₀ h₁
  have hmargin' := h.high_step h₀
  have hmargin'' := h.top_step h₀
  generalize 3 * t ^ 2 - 3 / 2 * t + 3 / 4 = d at *
  generalize t ^ 3 - 3 / 4 * t ^ 2 + 3 / 4 * t - x = f at *
  obtain ⟨ha₁, ha₂⟩ := abs_le.mp ha
  obtain ⟨hb₁, hb₂⟩ := abs_le.mp hb
  obtain ⟨hv₁, hv₂⟩ := abs_le.mp hv
  have hpos : 0 < b := by linarith
  have hquot : a / b * b = a := div_mul_cancel₀ a hpos.ne'
  generalize a / b = q at *
  -- The quotient is compared through its product with `b`, where the exact steps have room.
  refine ⟨?_, ?_, ?_⟩
  · have : q ≤ t - 9 / 10 * x - 1 / 10 ^ 10 := by
      refine le_of_mul_le_mul_right ?_ hpos
      nlinarith
    linarith
  · have : t - 2 * x + 1 / 10 ^ 10 ≤ q := by
      refine le_of_mul_le_mul_right ?_ hpos
      nlinarith
    linarith
  · have : t - 7 / 5 + 1 / 10 ^ 10 ≤ q := by
      refine le_of_mul_le_mul_right ?_ hpos
      nlinarith
    linarith

end Region

theorem mul_grain_le {n : ℕ} (hn : n ≤ 500) : (n : ℚ) * grain ≤ 1 / 10 ^ 10 := by
  have : (n : ℚ) ≤ 500 := by exact_mod_cast hn
  norm_num [grain]
  linarith

variable {x : Float} {ξ : ℚ}

theorem exists_residual (hx : Denotes x ξ) (h₀ : 0 ≤ ξ) (h₁ : ξ ≤ 1) (ht : Denotes t τ)
    (h : Region ξ τ) :
    ∃ a, Denotes (ease.residual x t) a ∧
      |a - (τ ^ 3 - 3 / 4 * τ ^ 2 + 3 / 4 * τ - ξ)| ≤ 1 / 10 ^ 10 := by
  have hτ := h.nonneg h₀
  have htop := h.top
  have hquarter : |(1 / 4 : ℚ)| ≤ 1 := by norm_num [abs_of_pos]
  obtain ⟨k, hpoint⟩ := near_point ht hτ htop denotes_quarter hquarter denotes_quarter hquarter
  have hvalue : |τ ^ 3 - 3 / 4 * τ ^ 2 + 3 / 4 * τ| ≤ ((3 : ℕ) : ℚ) := by
    rw [abs_le]
    push_cast
    constructor <;>
      nlinarith [mul_nonneg hτ (sq_nonneg (τ - 3 / 8)), mul_nonneg hτ (sub_nonneg.mpr htop)]
  have hpoint' := (hpoint.mono (r := τ ^ 3 - 3 / 4 * τ ^ 2 + 3 / 4 * τ) (by ring) le_rfl).bounded
    hvalue
  have hx' : Near x ξ 1 0 :=
    .of_denotes hx (abs_le.mpr ⟨by push_cast; linarith, by push_cast; linarith⟩)
  obtain ⟨a, ha, herror, -⟩ := hpoint'.sub hx' (by decide)
  exact ⟨a, ha, herror.trans (mul_grain_le (by decide))⟩

theorem exists_slope (ht : Denotes t τ) (hτ : 0 ≤ τ) (htop : τ ≤ 7 / 5) :
    ∃ b, Denotes (slope t 0.25 0.25) b ∧ |b - (3 * τ ^ 2 - 3 / 2 * τ + 3 / 4)| ≤ 1 / 10 ^ 10 := by
  have hquarter : |(1 / 4 : ℚ)| ≤ 1 := by norm_num [abs_of_pos]
  obtain ⟨k, hslope⟩ := near_slope ht hτ htop denotes_quarter hquarter denotes_quarter hquarter
  obtain ⟨b, hb, herror, -⟩ := hslope.mono (r := 3 * τ ^ 2 - 3 / 2 * τ + 3 / 4) (by ring) le_rfl
  exact ⟨b, hb, herror.trans (mul_grain_le (by decide))⟩

theorem region_newtonStep (hx : Denotes x ξ) (h₀ : 0 ≤ ξ) (h₁ : ξ ≤ 1) (ht : Denotes t τ)
    (h : Region ξ τ) (hlarge : ¬(ease.residual x t).abs < tolerance) :
    ∃ τ', Denotes (t - newtonStep (ease.residual x t) (slope t 0.25 0.25)) τ' ∧ Region ξ τ' := by
  have hτ := h.nonneg h₀
  have htop := h.top
  have hhigh := h.high
  obtain ⟨a, ha, haf⟩ := exists_residual hx h₀ h₁ ht h
  obtain ⟨b, hb, hbd⟩ := exists_slope ht hτ htop
  rw [ha.abs.lt_iff denotes_tolerance, not_lt, le_abs] at hlarge
  have haf' := abs_le.mp haf
  have hbd' := abs_le.mp hbd
  have hcubic₀ : 0 ≤ τ ^ 3 - 3 / 4 * τ ^ 2 + 3 / 4 * τ := by
    nlinarith [mul_nonneg hτ (sq_nonneg (τ - 3 / 8))]
  have hcubic₁ : τ ^ 3 - 3 / 4 * τ ^ 2 + 3 / 4 * τ ≤ 5 / 3 * τ := by
    nlinarith [mul_nonneg hτ (sub_nonneg.mpr htop)]
  -- Next to zero the residual is small enough.
  have hξ : 3 / 10 ^ 7 ≤ ξ := by
    rcases hlarge with hlarge | hlarge <;> linarith
  have hpos : 1 / 2 ≤ b := by nlinarith [sq_nonneg (τ - 1 / 4)]
  have hquot : |a / b| ≤ 8 := by
    rw [abs_le, le_div_iff₀ (by linarith), div_le_iff₀ (by linarith)]
    constructor <;> linarith
  have hquotient := ha.div hb (by linarith) (lt_overflowBound_of_abs_le (hquot.trans (by norm_num)))
  have herror := abs_snap_sub_le (hquot.trans (by norm_num : (8 : ℚ) ≤ 64))
  have hgrain : grain ≤ 1 / 10 ^ 11 := by norm_num [grain]
  have hquot' := abs_le.mp hquot
  have herror' := abs_le.mp herror
  have hrest : |τ - snap (a / b)| ≤ 64 := abs_le.mpr ⟨by linarith, by linarith⟩
  have herror'' := abs_le.mp (abs_snap_sub_le hrest)
  refine ⟨snap (τ - snap (a / b)), ?_, h.step hξ h₁ haf hbd ?_⟩
  · rw [newtonStep, hb.beq_zero (by linarith), if_neg Bool.false_ne_true]
    exact ht.sub hquotient (lt_overflowBound_of_abs_le (hrest.trans (by norm_num)))
  · exact abs_le.mpr ⟨by linarith, by linarith⟩

theorem region_solveFrom (hx : Denotes x ξ) (h₀ : 0 ≤ ξ) (h₁ : ξ ≤ 1) (fuel : ℕ) (ht : Denotes t τ)
    (h : Region ξ τ) : ∃ τ', Denotes (ease.solveFrom x fuel t) τ' ∧ Region ξ τ' := by
  induction fuel generalizing t τ with
  | zero => exact ⟨τ, ht, h⟩
  | succ fuel ih =>
    rw [solveFrom]
    split
    · exact ⟨τ, ht, h⟩
    · next hlarge =>
      obtain ⟨τ', ht', h'⟩ := region_newtonStep hx h₀ h₁ ht h hlarge
      exact ih ht' h'

theorem point_nonneg (ht : Denotes t τ) (h₀ : 0 ≤ τ) (h₁ : τ ≤ 1) (hp₁ : Within p₁ 0 1)
    (hp₂ : Within p₂ 0 1) : ∃ n, Within (point t 0.0 p₁ p₂ 1.0) 0 n := by
  have ht' : Within t 0 1 := .of_denotes ht ⟨by exact_mod_cast h₀, by exact_mod_cast h₁⟩
  have hzero : Within 0.0 0 0 := .of_denotes denotes_zero (by simp)
  have hone : Within 1.0 1 1 := .of_denotes denotes_one (by simp)
  have hone' : Within 1.0 0 1 := .of_denotes denotes_one (by simp)
  have hthree : Within 3.0 0 3 := .of_denotes denotes_three (by norm_num)
  have hu : Within (1.0 - t) 0 1 := hone.sub ht' (by decide) (by decide)
  have hfirst := ((hu.mul hu (by decide)).mul hu (by decide)).mul hzero (by decide)
  have hsecond := (((hthree.mul hu (by decide)).mul hu (by decide)).mul ht' (by decide)).mul hp₁
    (by decide)
  have hthird := (((hthree.mul hu (by decide)).mul ht' (by decide)).mul ht' (by decide)).mul hp₂
    (by decide)
  have hfourth := ((ht'.mul ht' (by decide)).mul ht' (by decide)).mul hone' (by decide)
  unfold point
  exact ⟨_, ((hfirst.add hsecond (by decide) (by decide)).add hthird (by decide) (by decide)).add
    hfourth (by decide) (by decide)⟩

theorem moderate_ease : Moderate (Easing.bezier ease).eval := by
  intro x ξ hx h₀ h₁
  obtain ⟨τ, ht, hregion⟩ := region_solveFrom hx h₀ h₁ maxSteps hx (.self h₀ h₁)
  have hτ := hregion.nonneg h₀
  have htop := hregion.top
  have htenth : |(7205759403792794 / 2 ^ 56 : ℚ)| ≤ 1 := by norm_num [abs_of_pos]
  obtain ⟨k, y, hy, herror, -⟩ := near_point ht hτ htop denotes_tenth htenth denotes_one (by simp)
  have herror' := abs_le.mp (herror.trans (mul_grain_le (by decide)))
  refine ⟨_, y, rfl, hy, ?_, ?_⟩
  · rcases le_total τ 1 with hless | hmore
    · obtain ⟨n, z, hz, hz₀, -⟩ := point_nonneg ht hτ hless
        (.of_denotes denotes_tenth (by norm_num)) (.of_denotes denotes_one (by simp))
      rw [Int.cast_zero] at hz₀
      exact hz₀.trans_eq (hz.2.symm.trans hy.2)
    · nlinarith [sq_nonneg (1 - τ)]
  · nlinarith [mul_nonneg hτ (sq_nonneg (1 - τ))]

end Bezier

end Tween
