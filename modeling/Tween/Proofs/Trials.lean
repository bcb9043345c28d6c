import Tween.Proofs.Newton
import Tween.Proofs.Tolerance

namespace Tween

open Float.Model (UnpackedFloat)

namespace Number

theorem isFinite_of_abs_lt {x y : Float} {b : ℚ} (hy : Denotes y b) (h : x.abs < y) :
    x.isFinite = true := by
  change (parts x).isFinite = true
  change ofParts (parts x).abs < y at h
  rw [lt_iff] at h
  cases hx : parts x with
  | zero | finite => rfl
  | notANumber =>
    rw [hx] at h
    cases h
  | infinity s =>
    have habs : (UnpackedFloat.infinity s).abs = .infinity .positive := rfl
    rw [hx, habs, parts_ofParts_infinity] at h
    -- An infinity is above every zero and every finite double.
    rcases hy.parts_cases with ⟨⟨s', hs⟩, -⟩ | ⟨s', m, e, hm, hs, -⟩
    · rw [hs] at h
      cases h
    · rw [hs] at h
      cases h

theorem isNaN_of_isFinite {x : Float} (h : x.isFinite = true) : x.isNaN = false := by
  change (parts x).isFinite = true at h
  change (parts x).isNaN = false
  cases hparts : parts x with
  | notANumber =>
    rw [hparts] at h
    cases h
  | infinity | zero | finite => rfl

theorem isFinite_of_isFinite_sub {x y : Float} (h : (x - y).isFinite = true) :
    x.isFinite = true ∧ y.isFinite = true := by
  by_contra hnot
  change (parts (ofParts (UnpackedFloat.sub .binary64 (parts x) (parts y)))).isFinite = true at h
  have hcases := sub_of_not_isFinite (p := parts x) (q := parts y) hnot
  obtain ⟨hsub, -⟩ | ⟨s, -, hsub, -⟩ := hcases
  · rw [hsub] at h
    cases h
  · rw [hsub, parts_ofParts_infinity] at h
    cases h

theorem abs_lt_of_abs_snap_lt {y : Float} {q b : ℚ} (hy : Denotes y b) (h : |snap q| < b) :
    |q| < b := by
  obtain ⟨hlow, hhigh⟩ := abs_lt.mp h
  have hsnap := hy.snap_eq
  refine abs_lt.mpr ⟨lt_of_not_ge fun hle => ?_, lt_of_not_ge fun hle => ?_⟩
  · have hmono := snap_mono hle
    rw [snap_neg, hsnap] at hmono
    exact hlow.not_ge hmono
  · have hmono := snap_mono hle
    rw [hsnap] at hmono
    exact hhigh.not_ge hmono

end Number

namespace Bezier

open Number

def next (c : Bezier) (x t : Float) : Float :=
  t - newtonStep (c.residual x t) (slope t c.x1 c.x2)

/-- The parameter after `i` steps, whether or not an earlier one is close. -/
def trial (c : Bezier) (x : Float) : ℕ → Float
  | 0 => x
  | i + 1 => c.next x (c.trial x i)

/-- Whether the first coordinate at a parameter is close to the one wanted. -/
def Close (c : Bezier) (x t : Float) : Prop :=
  (c.residual x t).abs < tolerance

instance (c : Bezier) (x t : Float) : Decidable (c.Close x t) :=
  inferInstanceAs (Decidable (_ < _))

/-- The quotient of two doubles, which a zero divisor has none of. -/
def divide (x y : Float) : Except Fault Float :=
  if y == 0.0 then .error .divisionByZero else .ok (x / y)

def stepDividing (f df : Float) : Except Fault Float :=
  if df == 0.0 then .ok (infinityLike f * (if hasMinus df then -1.0 else 1.0)) else divide f df

def solveDividing (c : Bezier) (x : Float) : ℕ → Float → Except Fault Float
  | 0, t => .ok t
  | fuel + 1, t =>
    if (c.residual x t).abs < tolerance then .ok t
    else do
      let step ← stepDividing (c.residual x t) (slope t c.x1 c.x2)
      solveDividing c x fuel (t - step)

/-- The second coordinate where the first one is `x`, if a step may fail. -/
def evalDividing (c : Bezier) (x : Float) : Except Fault Float := do
  let t ← c.solveDividing x maxSteps x
  return point t 0.0 c.y1 c.y2 1.0

theorem stepDividing_eq_ok (f df : Float) : stepDividing f df = .ok (newtonStep f df) := by
  rw [stepDividing, newtonStep]
  split
  · rfl
  · next hzero => rw [divide, if_neg hzero]

theorem solveDividing_eq_ok (c : Bezier) (x : Float) (fuel : ℕ) (t : Float) :
    c.solveDividing x fuel t = .ok (c.solveFrom x fuel t) := by
  induction fuel generalizing t with
  | zero => rfl
  | succ fuel ih =>
    rw [solveDividing, solveFrom]
    split
    · rfl
    · rw [stepDividing_eq_ok]
      exact ih _

theorem evalDividing_eq_ok (c : Bezier) (x : Float) : c.evalDividing x = .ok (c.eval x) := by
  rw [evalDividing, solveDividing_eq_ok]
  rfl

/-- The solver follows the trials from any one of them, up to the first that is close. -/
theorem exists_trial (c : Bezier) (x : Float) (fuel i : ℕ) :
    ∃ k, i ≤ k ∧ k ≤ i + fuel ∧ c.solveFrom x fuel (c.trial x i) = c.trial x k ∧
      (∀ j, i ≤ j → j < k → ¬c.Close x (c.trial x j)) ∧
      (k < i + fuel → c.Close x (c.trial x k)) := by
  induction fuel generalizing i with
  | zero =>
    refine ⟨i, le_rfl, le_rfl, rfl, fun j hj hlt => ?_, fun h => ?_⟩
    · exact absurd hlt hj.not_gt
    · exact absurd h (lt_irrefl i)
  | succ fuel ih =>
    rw [solveFrom]
    by_cases hclose : c.Close x (c.trial x i)
    · refine ⟨i, le_rfl, Nat.le_add_right i _, if_pos hclose, fun j hj hlt => ?_, fun _ => hclose⟩
      exact absurd hlt hj.not_gt
    · -- The parameter that the loop goes on with is the next trial.
      obtain ⟨k, hik, hk, hsolve, hapart, hend⟩ := ih (i + 1)
      refine ⟨k, by omega, by omega, (if_neg hclose).trans hsolve, fun j hj hlt => ?_, fun h => ?_⟩
      · rcases hj.eq_or_lt with rfl | hlt'
        · exact hclose
        · exact hapart j hlt' hlt
      · exact hend (by omega)

namespace Close

variable {c : Bezier} {x t : Float}

theorem isFinite (h : c.Close x t) : (c.residual x t).isFinite = true :=
  isFinite_of_abs_lt denotes_tolerance h

theorem exists_denotes (h : c.Close x t) :
    ∃ a ξ, Denotes (point t 0.0 c.x1 c.x2 1.0) a ∧ Denotes x ξ ∧ |a - ξ| < 1 / 10 ^ 6 := by
  have hfinite := h.isFinite
  obtain ⟨hpoint, hx⟩ := isFinite_of_isFinite_sub hfinite
  have ha : Denotes (point t 0.0 c.x1 c.x2 1.0) (rational _) := ⟨hpoint, rfl⟩
  have hξ : Denotes x (rational x) := ⟨hx, rfl⟩
  have hresidual : Denotes (c.residual x t) _ := ha.sub_of_isFinite hξ hfinite
  have hsmall := (hresidual.abs.lt_iff denotes_tolerance).mp h
  refine ⟨_, _, ha, hξ, (abs_lt_of_abs_snap_lt denotes_tolerance hsmall).trans ?_⟩
  norm_num

theorem not_isNaN (h : c.Close x t) : (c.residual x t).isNaN = false :=
  isNaN_of_isFinite h.isFinite

end Close

/-- The second coordinate of a curve is read off at the first of ten trials that is close, or at the
trial after these, and no step divides by zero. -/
theorem eval_at_first_close (c : Bezier) (x : Float) :
    (∃ k ≤ maxSteps,
      (∀ i < k, ¬c.Close x (c.trial x i)) ∧
      (k < maxSteps → c.Close x (c.trial x k)) ∧
      c.eval x = point (c.trial x k) 0.0 c.y1 c.y2 1.0) ∧
    c.evalDividing x = .ok (c.eval x) ∧
    ((∃ i < maxSteps, c.Close x (c.trial x i)) →
      ∃ t, c.eval x = point t 0.0 c.y1 c.y2 1.0 ∧ c.Close x t ∧
        ∃ a ξ, Denotes (point t 0.0 c.x1 c.x2 1.0) a ∧ Denotes x ξ ∧ |a - ξ| < 1 / 10 ^ 6) ∧
    ∀ t, (c.residual x t).isNaN = true → ¬c.Close x t := by
  obtain ⟨k, -, hk, hsolve, hapart, hclose⟩ := c.exists_trial x maxSteps 0
  rw [Nat.zero_add] at hk hclose
  have heval : c.eval x = point (c.trial x k) 0.0 c.y1 c.y2 1.0 :=
    congrArg (point · 0.0 c.y1 c.y2 1.0) hsolve
  refine ⟨⟨k, hk, fun i => hapart i (Nat.zero_le i), hclose, heval⟩, evalDividing_eq_ok c x,
    ?_, ?_⟩
  · rintro ⟨i, hi, hnear⟩
    have hik : k ≤ i := not_lt.mp fun hlt => hapart i (Nat.zero_le i) hlt hnear
    have hstop := hclose (hik.trans_lt hi)
    exact ⟨_, heval, hstop, hstop.exists_denotes⟩
  · intro t hnan hnear
    rw [hnear.not_isNaN] at hnan
    cases hnan

def cubic : Bezier := ⟨0.0, 0.0, 0.0, 1.0⟩

/-- The steps toward a cube root are close at the last trial, and at none before. -/
theorem eval_at_first_close_cubic :
    (∃ i < maxSteps, cubic.Close 0.125 (cubic.trial 0.125 i)) ∧
      (cubic.residual 0.125 (1.0 / 0.0)).isNaN = true ∧
      cubic.eval 0.125 = point (cubic.trial 0.125 9) 0.0 0.0 1.0 1.0 ∧
      cubic.evalDividing 0.125 = .ok (cubic.eval 0.125) ∧
      (∃ t, cubic.eval 0.125 = point t 0.0 0.0 1.0 1.0 ∧ cubic.Close 0.125 t ∧
        ∃ a ξ, Denotes (point t 0.0 0.0 0.0 1.0) a ∧ Denotes 0.125 ξ ∧ |a - ξ| < 1 / 10 ^ 6) ∧
      ¬cubic.Close 0.125 (1.0 / 0.0) := by
  have hapart : ∀ i < 9, ¬cubic.Close 0.125 (cubic.trial 0.125 i) := by decide +kernel
  have hlast : cubic.Close 0.125 (cubic.trial 0.125 9) := by decide +kernel
  have hnan : (cubic.residual 0.125 (1.0 / 0.0)).isNaN = true := by decide +kernel
  have hsome : ∃ i < maxSteps, cubic.Close 0.125 (cubic.trial 0.125 i) := ⟨9, by decide, hlast⟩
  obtain ⟨⟨k, hk, hbefore, hclose, heval⟩, hdividing, hnear, hnumber⟩ :=
    eval_at_first_close cubic 0.125
  have hnine : k = 9 := by
    refine le_antisymm (not_lt.mp fun hlt => hbefore 9 hlt hlast) (not_lt.mp fun hlt => ?_)
    exact hapart k hlt (hclose (hlt.trans (by decide)))
  rw [hnine] at heval
  exact ⟨hsome, hnan, heval, hdividing, hnear hsome, hnumber _ hnan⟩

-- Where the first slope is zero, the next trial is an infinity.
example : slope 0.5 1.25 0.25 = 0.0 ∧ (eval ⟨1.25, 0.0, 0.25, 1.0⟩ 0.5).isNaN = true := by
  decide +kernel

end Bezier

end Tween
