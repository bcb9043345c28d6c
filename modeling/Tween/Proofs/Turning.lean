import Tween.Proofs.Calls

namespace Tween

variable {κ : Type}

namespace Timer

variable (t : Timer) (now length : Int)

def passed : Int :=
  (t.elapsed now).getD length

/-- How far a timer is from the end where it began, forward, kept between the ends. -/
def position : Int :=
  max 0 (min length (if t.reversed then length - t.passed now length else t.passed now length))

theorem spent_eq : t.spent now length = min (t.passed now length) length := by
  unfold spent passed
  cases t.elapsed now with
  | none => exact (show length = min length length by omega)
  | some e => rfl

theorem finished_iff_le_passed : t.finished now length = true ↔ length ≤ t.passed now length := by
  unfold finished passed
  cases t.elapsed now with
  | none => exact iff_of_true rfl (Int.le_refl length)
  | some e => exact decide_eq_true_iff

theorem elapsed_reverse :
    (t.reverse now length).elapsed now = some (length - min (t.passed now length) length) := by
  rw [← spent_eq]
  exact congrArg some (Int.sub_sub_self now _)

theorem passed_reverse :
    (t.reverse now length).passed now length = length - min (t.passed now length) length := by
  rw [passed, elapsed_reverse, Option.getD_some]

theorem position_reverse (h : 0 ≤ length) :
    (t.reverse now length).position now length = t.position now length := by
  rw [position, position, passed_reverse]
  change max 0 (min length (if (!t.reversed) = true then _ else _)) = _
  cases t.reversed <;> simp only [Bool.not_true, Bool.not_false, if_true, if_false,
    Bool.false_eq_true] <;> omega

/-- After two reversals the time since the start is what it was, kept between the ends. -/
theorem passed_reverse_reverse (h : 0 ≤ length) :
    ((t.reverse now length).reverse now length).passed now length =
      max 0 (min (t.passed now length) length) := by
  rw [passed_reverse, passed_reverse]
  omega

theorem phase_reverse_reverse (h : 0 < length) :
    ((t.reverse now length).reverse now length).phase now length = t.phase now length := by
  have hfinished : ((t.reverse now length).reverse now length).finished now length =
      t.finished now length := by
    rw [Bool.eq_iff_iff, finished_iff_le_passed, finished_iff_le_passed,
      passed_reverse_reverse _ _ _ (Int.le_of_lt h)]
    omega
  rw [phase, phase, hfinished]
  rfl

/-- Two reversals restore the start just when there was one, not later than now and not longer ago than
the length. -/
theorem startedAt_reverse_reverse (h : 0 ≤ length) :
    ((t.reverse now length).reverse now length).startedAt = t.startedAt ↔
      t.startedAt.isSome ∧ 0 ≤ t.passed now length ∧ t.passed now length ≤ length := by
  change some (now - (length - (t.reverse now length).spent now length)) = t.startedAt ↔ _
  rw [spent_eq, passed_reverse, passed, elapsed]
  cases t.startedAt with
  | none => simp
  | some s =>
    simp only [Option.map_some, Option.getD_some, Option.some.injEq, Option.isSome_some, true_and]
    omega

end Timer

namespace World

/-- How far a duration is from the end where it began, forward, kept between the ends. -/
def position (w : World κ) (d : Ref Duration) : Int :=
  (w.timer d).position (w.nowOf d) (w.length d)

theorem timer_reverse (w : World κ) (d : Ref Duration) :
    (w.step (.onDuration d .reverse)).2.timer d = (w.timer d).reverse (w.nowOf d) (w.length d) := by
  rw [(w.step_onDuration d .reverse).timer, if_pos rfl, Timer.respond]

/-- A reversal flips the direction and keeps the position. A second one with the same reading and
length gives back all but the start, which is restored just when the time since then lies between
zero and the length. -/
theorem reverse_reverses (w : World κ) (d : Ref Duration) :
    let length := w.length d
    let e := (w.elapsed d).getD length
    let v := (w.step (.onDuration d .reverse)).2
    (w.step (.onDuration d .reverse)).1 = .ok .done ∧
      (v.timer d).reversed = !(w.timer d).reversed ∧
      (v.timer d).pending = (w.timer d).pending ∧
      v.position d = w.position d ∧
      v.elapsed d = some (length - min e length) ∧
      ∀ u : World κ, u.timer d = v.timer d → u.nowOf d = w.nowOf d → u.length d = length →
        let u' := (u.step (.onDuration d .reverse)).2
        (u'.timer d).reversed = (w.timer d).reversed ∧
          (u'.timer d).pending = (w.timer d).pending ∧
          u'.position d = w.position d ∧
          u'.phase d = w.phase d ∧
          ((u'.timer d).startedAt = (w.timer d).startedAt ↔
            (w.timer d).startedAt.isSome ∧ 0 ≤ e ∧ e ≤ length) := by
  intro length e v
  have hpos : 0 < length := w.one_le_length d
  have htimer : v.timer d = (w.timer d).reverse (w.nowOf d) length := w.timer_reverse d
  have hretimed := w.step_onDuration d .reverse
  have hnow : v.nowOf d = w.nowOf d := hretimed.nowOf d
  have hlength : v.length d = length := hretimed.length d
  refine ⟨rfl, ?_, ?_, ?_, ?_, fun u hu hunow hulength => ?_⟩
  · rw [htimer]
    rfl
  · rw [htimer]
    rfl
  · rw [position, htimer, hnow, hlength]
    exact Timer.position_reverse _ _ _ (Int.le_of_lt hpos)
  · rw [elapsed, htimer, hnow]
    exact Timer.elapsed_reverse _ _ _
  · intro u'
    -- The world `u` is any later one, in which only the timer, the reading and the length are as before.
    have htwice : u'.timer d =
        ((w.timer d).reverse (w.nowOf d) length).reverse (w.nowOf d) length := by
      rw [← htimer, ← hu, ← hunow, ← hulength]
      exact u.timer_reverse d
    have hretimed' := u.step_onDuration d .reverse
    have hnow' : u'.nowOf d = w.nowOf d := (hretimed'.nowOf d).trans hunow
    have hlength' : u'.length d = length := (hretimed'.length d).trans hulength
    refine ⟨?_, ?_, ?_, ?_, ?_⟩
    · rw [htwice]
      exact Bool.not_not _
    · rw [htwice]
      rfl
    · rw [position, htwice, hnow', hlength', Timer.position_reverse _ _ _ (Int.le_of_lt hpos)]
      exact Timer.position_reverse _ _ _ (Int.le_of_lt hpos)
    · rw [phase, htwice, hnow', hlength']
      exact Timer.phase_reverse_reverse _ _ _ hpos
    · rw [htwice]
      exact Timer.startedAt_reverse_reverse _ _ _ (Int.le_of_lt hpos)

/-- The clock of a duration is set back to before its start. Two reversals, with a query between them,
leave it at the beginning, but started now. -/
theorem reverse_reverses_early :
    let w := (solo 100).after [.onDuration ⟨0⟩ .start, .onClock ⟨0⟩ (.reset (-30))]
    let v := (w.step (.onDuration ⟨0⟩ .reverse)).2
    let u := v.after [.onDuration ⟨0⟩ .progress]
    let u' := (u.step (.onDuration ⟨0⟩ .reverse)).2
    v.elapsed ⟨0⟩ = some 130 ∧ u'.position ⟨0⟩ = 0 ∧ u'.phase ⟨0⟩ = .running ∧
      (u'.timer ⟨0⟩).startedAt ≠ some 0 := by
  intro w v u u'
  obtain ⟨-, -, -, -, helapsed, htwice⟩ := reverse_reverses w ⟨0⟩
  obtain ⟨-, -, hposition, hphase, hstart⟩ := htwice u (by decide) (by decide) (by decide)
  have hearly : ¬0 ≤ (w.elapsed ⟨0⟩).getD (w.length ⟨0⟩) := by decide
  refine ⟨helapsed, hposition, hphase, fun h => hearly ?_⟩
  exact (hstart.mp (h.trans (by decide))).2.1

end World

end Tween
