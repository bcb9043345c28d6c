import Tween.Proofs.Angles
import Tween.Proofs.Curves
import Tween.Proofs.SquareRoots

namespace Tween

open Number

/-- Whether a function takes a progress between zero and one to a number that does not go back behind
the start, and beyond the end by less than the whole way. -/
def Moderate (f : Float → Except Fault Float) : Prop :=
  ∀ x a, Denotes x a → 0 ≤ a → a ≤ 1 → ∃ y b, f x = .ok y ∧ Denotes y b ∧ 0 ≤ b ∧ b ≤ 15 / 8

namespace Number

theorem denotes_clampUnit (q : Float) : ∃ a, Denotes (Timer.clampUnit q) a ∧ 0 ≤ a ∧ a ≤ 1 := by
  unfold Timer.clampUnit
  by_cases hless : q < 1.0
  · rw [if_pos hless]
    by_cases hpos : 0.0 < q
    · obtain ⟨a, ha, h₀, h₁⟩ := Denotes.of_lt_of_lt hpos hless
      exact ⟨a, by rwa [if_pos hpos], h₀.le, h₁.le⟩
    · rw [if_neg hpos]
      exact ⟨0, .of_parts_zero (s := .positive) rfl, le_rfl, zero_le_one⟩
  · rw [if_neg hless]
    exact ⟨1, denotes_one, zero_le_one, le_rfl⟩

end Number

namespace Curve

theorem moderate_linear : Moderate linear.eval :=
  fun x a h h₀ h₁ => ⟨x, a, rfl, h, h₀, h₁.trans (by norm_num)⟩

/-- Rounding keeps the order, so the square of the argument does not exceed its double. -/
theorem moderate_circle : Moderate circle.eval := by
  intro x a h h₀ h₁
  have hdouble : 2 * a ∈ Set.Icc ((0 : ℤ) : ℚ) (2 : ℤ) := by
    constructor <;> push_cast <;> linarith
  have hsquare : a * a ∈ Set.Icc ((0 : ℤ) : ℚ) (2 : ℤ) := by
    constructor <;> push_cast <;> nlinarith
  have hdouble' := snap_mem_Icc (by decide) (by decide) hdouble
  have hsquare' := snap_mem_Icc (by decide) (by decide) hsquare
  have hle : snap (a * a) ≤ snap (2 * a) := snap_mono (by nlinarith)
  have hrest : snap (2 * a) - snap (a * a) ∈ Set.Icc ((0 : ℤ) : ℚ) (2 : ℤ) :=
    ⟨by push_cast; linarith, (sub_le_self _ (by exact_mod_cast hsquare'.1)).trans hdouble'.2⟩
  have hvalue := (denotes_two.mul h (abs_lt_overflowBound (by decide) (by decide) hdouble)).sub
    (h.mul h (abs_lt_overflowBound (by decide) (by decide) hsquare))
    (abs_lt_overflowBound (by decide) (by decide) hrest)
  obtain ⟨hlow, hhigh⟩ := snap_mem_Icc (by decide) (by decide) hrest
  push_cast at hlow hhigh
  -- The root of two is less than three halves, which is a double.
  have htop : snap (3 / 2) = 3 / 2 := snap_of_dyadic 3 1 (by norm_num) (by decide) (by decide)
  have hbound : (3 / 2 : ℚ) < overflowBound :=
    (le_abs_self _).trans_lt (lt_overflowBound_of_abs_le (by norm_num))
  obtain ⟨b, hb, hb₀, hb₁⟩ := hvalue.sqrt hlow (by norm_num : (0 : ℚ) ≤ 3 / 2)
    (hhigh.trans (by norm_num)) hbound
  rw [htop] at hb₁
  refine ⟨_, b, ?_, hb, hb₀, hb₁.trans (by norm_num)⟩
  rw [eval, squareRoot, if_neg (hvalue.not_lt_zero hlow)]

theorem denotes_sigmoidMax : Denotes sigmoidMax (4514762934749674 / 2 ^ 52) := by
  have hvalue : sigmoidMax = 1.0024787521766663 := by decide +kernel
  rw [hvalue]
  exact .of_value (s := .positive) (m := 4514762934749674) (e := -52) rfl (by norm_num [withSign])

/-- The exponent is six at most, and what the curve is divided by is one at least. -/
theorem moderate_sigmoid : Moderate sigmoid.eval := by
  intro x a h h₀ h₁
  have htwelve : Denotes (-12.0) (-12) := .of_value (s := .negative) (m := 3 * 2 ^ 51) (e := -49) rfl
    (by norm_num [withSign])
  have hsix : Denotes 6.0 6 := .of_value (s := .positive) (m := 3 * 2 ^ 51) (e := -50) rfl
    (by norm_num [withSign])
  have hproduct : -12 * a ∈ Set.Icc ((-12 : ℤ) : ℚ) (0 : ℤ) := by
    constructor <;> push_cast <;> linarith
  have hsum : snap (-12 * a) + 6 ∈ Set.Icc ((-6 : ℤ) : ℚ) (6 : ℤ) := by
    obtain ⟨hlow, hhigh⟩ := snap_mem_Icc (by decide) (by decide) hproduct
    push_cast at hlow hhigh ⊢
    constructor <;> linarith
  have hexponent := (htwelve.mul h (abs_lt_overflowBound (by decide) (by decide) hproduct)).add
    hsix (abs_lt_overflowBound (by decide) (by decide) hsum)
  have hlarge := (snap_mem_Icc (by decide) (by decide) hsum).2
  obtain ⟨y, b, hexp, hb, hb₀, hb₁⟩ := exists_exp hexponent (by exact_mod_cast hlarge)
  have hone : snap 1 = 1 := denotes_one.snap_eq
  have htop := denotes_sigmoidMax.snap_eq
  have hdivisor : 1 + b ∈ Set.Icc ((1 : ℤ) : ℚ) (730 : ℤ) := by
    constructor <;> push_cast <;> linarith
  obtain ⟨hlow, -⟩ := snap_mem_Icc (by decide) (by decide) hdivisor
  have hdivided := denotes_one.add hb (abs_lt_overflowBound (by decide) (by decide) hdivisor)
  rw [Int.cast_one] at hlow
  have hquotient : 4514762934749674 / 2 ^ 52 / snap (1 + b) ∈
      Set.Icc (0 : ℚ) (4514762934749674 / 2 ^ 52) := by
    refine ⟨div_nonneg (by norm_num) (zero_le_one.trans hlow), ?_⟩
    exact div_le_self (by norm_num) hlow
  have hbound : |4514762934749674 / 2 ^ 52 / snap (1 + b)| < overflowBound :=
    lt_overflowBound_of_abs_le
      (abs_le.mpr ⟨by linarith [hquotient.1], hquotient.2.trans (by norm_num)⟩)
  refine ⟨_, _, ?_, denotes_sigmoidMax.div hdivided (by linarith) hbound, snap_nonneg hquotient.1, ?_⟩
  · rw [eval, hexp]
    rfl
  · exact (snap_mono hquotient.2).trans (htop.trans_le (by norm_num))

theorem two_rpow_le {q : ℚ} (hq : q ≤ -5 / 16) : (2 : ℝ) ^ (q : ℝ) ≤ (7 / 8 : ℚ) := by
  have hq' : (q : ℝ) ≤ -5 / 16 := by exact_mod_cast (Rat.cast_le (K := ℝ)).mpr hq
  refine (Real.rpow_le_rpow_of_exponent_le one_le_two hq').trans ?_
  rw [← pow_le_pow_iff_left₀ (by positivity) (by norm_num) (show 16 ≠ 0 by decide),
    ← Real.rpow_natCast, ← Real.rpow_mul two_pos.le]
  norm_num

/-- The decay of the elastic curve, one at most, and less than that where its wave is positive. -/
theorem exists_decay {x : Float} {a : ℚ} (h : Denotes x a) (h₀ : 0 ≤ a) (h₁ : a ≤ 1) :
    ∃ y b, twoPow (-10.0 * x) = .ok y ∧ Denotes y b ∧ 0 ≤ b ∧ b ≤ 1 ∧ (1 / 32 ≤ a → b ≤ 7 / 8) := by
  have hten : Denotes (-10.0) (-10) := .of_value (s := .negative) (m := 5 * 2 ^ 50) (e := -49) rfl
    (by norm_num [withSign])
  have hproduct : -10 * a ∈ Set.Icc ((-10 : ℤ) : ℚ) (0 : ℤ) := by
    constructor <;> push_cast <;> linarith
  have hexponent := hten.mul h (abs_lt_overflowBound (by decide) (by decide) hproduct)
  have hle := (snap_mem_Icc (by decide) (by decide) hproduct).2
  rw [Int.cast_zero] at hle
  by_cases hfar : 1 / 32 ≤ a
  · have hedge : snap (-5 / 16) = -5 / 16 := snap_of_dyadic (-5) 4 (by norm_num) (by decide) (by decide)
    have hsmall : snap (-10 * a) ≤ -5 / 16 := (snap_mono (by linarith)).trans_eq hedge
    obtain ⟨y, b, hy, hb, hb₀, hb₁⟩ := exists_twoPow hexponent hle (two_rpow_le hsmall)
      (one_lt_overflowBound.trans' (by norm_num))
    rw [snap_of_dyadic 7 3 (by norm_num) (by decide) (by decide)] at hb₁
    exact ⟨y, b, hy, hb, hb₀, hb₁.trans (by norm_num), fun _ => hb₁⟩
  · have hone : (2 : ℝ) ^ (snap (-10 * a) : ℝ) ≤ (1 : ℚ) := by
      rw [Rat.cast_one]
      exact Real.rpow_le_one_of_one_le_of_nonpos one_le_two (by exact_mod_cast hle)
    obtain ⟨y, b, hy, hb, hb₀, hb₁⟩ := exists_twoPow hexponent hle hone one_lt_overflowBound
    rw [denotes_one.snap_eq] at hb₁
    exact ⟨y, b, hy, hb, hb₀, hb₁, fun h => absurd h hfar⟩

/-- The angle of the elastic curve, which begins about a right angle below zero. -/
theorem exists_angle {x : Float} {a : ℚ} (h : Denotes x a) (h₀ : 0 ≤ a) (h₁ : a ≤ 1) :
    ∃ θ, Denotes ((x - elasticShift) * (2.0 * pi) / elasticPeriod) θ ∧
      (a ≤ 1 / 32 → -(8 / 5) ≤ θ ∧ θ ≤ -(6 / 5)) := by
  have hshift : Denotes elasticShift (5404319552844595 / 2 ^ 55) :=
    .of_value (s := .positive) (m := 5404319552844595) (e := -55) rfl (by norm_num [withSign])
  have hturn : Denotes (2.0 * pi) (7074237752028440 / 2 ^ 50) :=
    .of_value (s := .positive) (m := 7074237752028440) (e := -50) rfl (by norm_num [withSign])
  have hperiod : Denotes elasticPeriod (5404319552844595 / 2 ^ 53) :=
    .of_value (s := .positive) (m := 5404319552844595) (e := -53) rfl (by norm_num [withSign])
  have hgrain : grain ≤ 1 / 10000 := by norm_num [grain]
  have hless : ∀ {v : ℚ} {n : ℚ}, |v| ≤ n → n ≤ 64 → |v| < overflowBound := fun hv hn =>
    lt_overflowBound_of_abs_le ((hv.trans hn).trans (by norm_num))
  -- Each rounding moves the angle by a grain.
  have hone : |a - 5404319552844595 / 2 ^ 55| ≤ 1 := by
    rw [abs_le]
    constructor <;> linarith
  have hdifference := h.sub hshift (hless hone (by norm_num))
  have herror := abs_le.mp (abs_snap_sub_le (hone.trans (by norm_num)))
  generalize snap (a - 5404319552844595 / 2 ^ 55) = u at hdifference herror
  have hone' := abs_le.mp hone
  have htwo : |u * (7074237752028440 / 2 ^ 50)| ≤ 7 := by
    rw [abs_le]
    constructor <;> linarith
  have hproduct := hdifference.mul hturn (hless htwo (by norm_num))
  have herror' := abs_le.mp (abs_snap_sub_le (htwo.trans (by norm_num)))
  generalize snap (u * (7074237752028440 / 2 ^ 50)) = v at hproduct herror'
  have htwo' := abs_le.mp htwo
  have hthree : |v / (5404319552844595 / 2 ^ 53)| ≤ 12 := by
    rw [abs_le, le_div_iff₀ (by norm_num), div_le_iff₀ (by norm_num)]
    constructor <;> linarith
  have hangle := hproduct.div hperiod (by norm_num) (hless hthree (by norm_num))
  have herror'' := abs_le.mp (abs_snap_sub_le (hthree.trans (by norm_num)))
  refine ⟨_, hangle, fun hsmall => ⟨?_, ?_⟩⟩
  · have : -(8 / 5) + 1 / 1000 ≤ v / (5404319552844595 / 2 ^ 53) := by
      rw [le_div_iff₀ (by norm_num)]
      linarith
    linarith
  · have : v / (5404319552844595 / 2 ^ 53) ≤ -(6 / 5) - 1 / 1000 := by
      rw [div_le_iff₀ (by norm_num)]
      linarith
    linarith

theorem exists_wave {x : Float} {a : ℚ} (h : Denotes x a) (h₀ : 0 ≤ a) (h₁ : a ≤ 1) :
    ∃ y b, sine ((x - elasticShift) * (2.0 * pi) / elasticPeriod) = .ok y ∧ Denotes y b ∧
      |b| ≤ 1 ∧ (a ≤ 1 / 32 → b ≤ 0) := by
  obtain ⟨θ, hθ, hrange⟩ := exists_angle h h₀ h₁
  obtain ⟨y, b, hy, hb, hb₁, hnear⟩ := exists_sine hθ
  exact ⟨y, b, hy, hb, hb₁, fun hsmall => hnear (hrange hsmall).1 (hrange hsmall).2⟩

theorem moderate_easeOutElastic : Moderate easeOutElastic.eval := by
  intro x a h h₀ h₁
  rw [eval]
  split
  · exact ⟨0.0, 0, rfl, .of_parts_zero (s := .positive) rfl, le_rfl, by norm_num⟩
  · split
    · exact ⟨1.0, 1, rfl, denotes_one, zero_le_one, by norm_num⟩
    · obtain ⟨decay, d, hdecay, hd, hd₀, hd₁, hfar⟩ := exists_decay h h₀ h₁
      obtain ⟨wave, b, hwave, hb, hb₁, hnear⟩ := exists_wave h h₀ h₁
      rw [abs_le] at hb₁
      have hless : d * b ≤ 7 / 8 := by
        -- Early on the decay is still large, but the wave is not positive there.
        rcases le_total a (1 / 32) with hsmall | hlarge
        · have := mul_nonpos_of_nonneg_of_nonpos hd₀ (hnear hsmall)
          linarith
        · nlinarith [hfar hlarge]
      have hmore : -1 ≤ d * b := by nlinarith
      have hproduct := hd.mul hb
        (lt_overflowBound_of_abs_le (abs_le.mpr ⟨by linarith, by linarith⟩))
      have hless' : snap (d * b) ≤ 7 / 8 := (snap_mono hless).trans_eq
        (snap_of_dyadic 7 3 (by norm_num) (by decide) (by decide))
      have hmore' : -1 ≤ snap (d * b) := (snap_of_dyadic (-1) 0 (by norm_num) (by decide)
        (by decide)).symm.trans_le (snap_mono hmore)
      have hsum := hproduct.add denotes_one
        (lt_overflowBound_of_abs_le (abs_le.mpr ⟨by linarith, by linarith⟩))
      refine ⟨_, _, ?_, hsum, snap_nonneg (by linarith), ?_⟩
      · rw [hdecay]
        dsimp only [bind, Except.bind]
        rw [hwave]
        rfl
      · exact (snap_mono (by linarith)).trans_eq
          (snap_of_dyadic 15 3 (by norm_num) (by decide) (by decide))

theorem moderate_eval (c : Curve) : Moderate c.eval := by
  cases c with
  | linear => exact moderate_linear
  | circle => exact moderate_circle
  | sigmoid => exact moderate_sigmoid
  | easeOutElastic => exact moderate_easeOutElastic

theorem isOk_eval (c : Curve) {x : Float} {a : ℚ} (h : Denotes x a) (h₀ : 0 ≤ a) (h₁ : a ≤ 1) :
    (c.eval x).isOk = true := by
  obtain ⟨y, b, hy, -⟩ := c.moderate_eval x a h h₀ h₁
  rw [hy]
  rfl

end Curve

namespace World

variable {κ : Type} {w : World κ} {d : Ref Duration}

/-- A progress before easing, unless it is a fault, is a number between zero and one. -/
theorem denotes_fraction {x : Float} (h : w.fraction d = .ok x) :
    ∃ a, Denotes x a ∧ 0 ≤ a ∧ a ≤ 1 := by
  have hend : ∃ a, Denotes (w.timer d).endpoint a ∧ 0 ≤ a ∧ a ≤ 1 := by
    unfold Timer.endpoint
    split
    · exact ⟨0, .of_parts_zero (s := .positive) rfl, le_rfl, zero_le_one⟩
    · exact ⟨1, denotes_one, zero_le_one, le_rfl⟩
  unfold fraction Timer.fraction at h
  split at h
  · split at h
    · cases h
      exact hend
    · split at h
      · cases h
        exact hend
      · unfold Timer.fractionAt at h
        cases hq : Number.quotient _ _ with
        | error fault =>
          rw [hq] at h
          cases h
        | ok q =>
          rw [hq] at h
          cases h
          exact denotes_clampUnit _
  · cases h
    exact ⟨1, denotes_one, zero_le_one, le_rfl⟩

theorem isOk_progress_eq (he : (w.easing d).isCurve = true) :
    (w.progress d).isOk = (w.finished d || (w.fraction d).isOk) := by
  cases hf : w.finished d with
  | true => exact isOk_progress_of_finished he hf
  | false =>
    rw [progress, if_neg (Bool.eq_false_iff.mp hf), Bool.false_or]
    cases hx : w.fraction d with
    | error fault => rfl
    | ok x =>
      obtain ⟨a, ha, h₀, h₁⟩ := denotes_fraction hx
      cases heasing : w.easing d with
      | named c => exact c.isOk_eval ha h₀ h₁
      | bezier c => rfl
      | function =>
        rw [heasing] at he
        cases he

/-- A progress before easing that does not run backwards is a number between zero and one. -/
theorem exists_fraction (hs : ∀ start, (w.timer d).startedAt = some start → start ≤ w.nowOf d) :
    ∃ x a, w.fraction d = .ok x ∧ Denotes x a ∧ 0 ≤ a ∧ a ≤ 1 := by
  have hok : ∃ x, w.fraction d = .ok x := by
    unfold fraction Timer.fraction
    split
    · cases hstart : (w.timer d).startedAt with
      | none =>
        rw [Timer.elapsed, hstart]
        exact ⟨_, rfl⟩
      | some start =>
        rw [Timer.elapsed, hstart]
        dsimp only [Option.map]
        split
        · exact ⟨_, rfl⟩
        · next hless =>
          rw [Timer.fractionAt,
            Number.quotient_of_lt (sub_nonneg.mpr (hs start hstart)) (not_le.mp hless)]
          exact ⟨_, rfl⟩
    · exact ⟨_, rfl⟩
  obtain ⟨x, hx⟩ := hok
  obtain ⟨a, ha⟩ := denotes_fraction hx
  exact ⟨x, a, hx, ha⟩

theorem isOk_progress (he : (w.easing d).isCurve = true)
    (hs : ∀ start, (w.timer d).startedAt = some start → start ≤ w.nowOf d) :
    (w.progress d).isOk = true := by
  obtain ⟨x, -, hx, -⟩ := exists_fraction hs
  rw [isOk_progress_eq he, hx]
  exact Bool.or_true _

theorem exists_progress (he : Moderate (w.easing d).eval)
    (hs : ∀ start, (w.timer d).startedAt = some start → start ≤ w.nowOf d) :
    ∃ y b, w.progress d = .ok y ∧ Denotes y b ∧ 0 ≤ b ∧ b ≤ 15 / 8 := by
  unfold progress
  split
  · unfold Timer.endpoint
    split
    · exact he 0.0 0 (.of_parts_zero (s := .positive) rfl) le_rfl zero_le_one
    · exact he 1.0 1 denotes_one zero_le_one le_rfl
  · obtain ⟨x, a, hx, ha, h₀, h₁⟩ := exists_fraction hs
    rw [hx]
    exact he x a ha h₀ h₁

end World

end Tween
