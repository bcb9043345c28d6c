import Mathlib.Control.Monad.Basic
import Tween.Proofs.Calls

namespace Tween

variable {κ : Type}

theorem Curve.eval_zero_ne_eval_one (c : Curve) : c.eval 0.0 ≠ c.eval 1.0 := by
  cases c <;> decide +kernel

theorem Timer.fraction_of_finished {t : Timer} {now length : Int}
    (h : t.finished now length = true) : t.fraction now length = .ok t.endpoint := by
  unfold fraction
  unfold finished at h
  cases he : t.elapsed now with
  | none => rfl
  | some e =>
    rw [he, Option.all_some, decide_eq_true_iff] at h
    exact if_pos h

namespace World

variable {w : World κ} {d : Ref Duration}

/-- What has not finished eases its fraction, whether a length is configured or not. -/
theorem progress_of_not_finished (h : w.finished d = false) :
    w.progress d = w.fraction d >>= (w.easing d).eval := by
  rw [progress, if_neg (Bool.eq_false_iff.mp h)]

theorem progress_eq_bind_fraction (hlength : w.hasLength d = true) :
    w.progress d = w.fraction d >>= (w.easing d).eval := by
  cases h : w.finished d with
  | false => exact progress_of_not_finished h
  | true =>
    have hfraction : w.fraction d = .ok (w.timer d).endpoint := by
      rw [fraction, if_pos hlength, Timer.fraction_of_finished h]
    rw [progress, if_pos h, hfraction]
    rfl

/-- Without a length, only the end of what has been turned around counts as the beginning. -/
theorem progress_of_not_hasLength (hlength : w.hasLength d = false) : w.fraction d = .ok 1.0 ∧
    w.progress d =
      (w.easing d).eval (if w.finished d && (w.timer d).reversed then 0.0 else 1.0) := by
  have hfraction : w.fraction d = .ok 1.0 := by
    rw [fraction, if_neg (Bool.eq_false_iff.mp hlength)]
  refine ⟨hfraction, ?_⟩
  cases h : w.finished d with
  | false =>
    rw [progress_of_not_finished h, hfraction]
    rfl
  | true =>
    rw [progress, if_pos h, Timer.endpoint, Bool.true_and]

/-- The progress of a duration is its eased fraction, value for value and fault for fault. Only one
without a length that has finished in reverse eases the beginning, while its fraction is
complete. -/
theorem progress_eases_fraction (w : World κ) (d : Ref Duration) :
    let answer (op : DurationOp) := (w.step (.onDuration d op)).1
    let eased := w.fraction d >>= (w.easing d).eval
    let returned := w.finished d && (w.timer d).reversed
    answer .progress = (w.progress d).map .number ∧
    answer .fraction = (w.fraction d).map .number ∧
    answer .easing = .ok (.easing (w.easing d)) ∧
    (w.hasLength d = true → w.progress d = eased) ∧
    (w.hasLength d = false →
      w.fraction d = .ok 1.0 ∧
      (returned = false → w.progress d = eased) ∧
      (returned = true → w.progress d = (w.easing d).eval 0.0 ∧
        (w.progress d = eased ↔ (w.easing d).eval 0.0 = (w.easing d).eval 1.0) ∧
        ∀ c, w.easing d = .named c → w.progress d ≠ eased)) := by
  intro answer eased returned
  refine ⟨?_, ?_, rfl, progress_eq_bind_fraction, fun hlength => ?_⟩
  · change ((Act.durationOp d .progress).perform w).1 = _
    rw [Act.durationOp, Act.perform_bind_pure, Act.perform_progress]
  · change ((Act.durationOp d .fraction).perform w).1 = _
    rw [Act.durationOp, Act.perform_bind_pure, Act.perform_query]
  · -- Without a length the fraction is one throughout, so only the eased end can differ.
    obtain ⟨hfraction, hprogress⟩ := progress_of_not_hasLength hlength
    have heased : eased = (w.easing d).eval 1.0 := by
      change w.fraction d >>= _ = _
      rw [hfraction]
      rfl
    refine ⟨hfraction, fun hreturned => ?_, fun hreturned => ?_⟩
    · rw [heased, hprogress, if_neg (Bool.eq_false_iff.mp hreturned)]
    · rw [if_pos hreturned] at hprogress
      rw [heased, hprogress]
      refine ⟨rfl, Iff.rfl, fun c hc => ?_⟩
      rw [hc]
      exact c.eval_zero_ne_eval_one

/-- Two durations turned around once their length has passed: one that eases by the reciprocal,
which zero has none of, and a linear one without a length. -/
def returned : World Unit :=
  World.empty.after [.newClock 0, .newLength (.whole "length" 100),
    .newDuration { length := some ⟨0⟩, smoothing := .reciprocal, clock := .manual ⟨0⟩ },
    .newDuration { smoothing := .named .linear, clock := .manual ⟨0⟩ },
    .onDuration ⟨0⟩ .reverse, .onDuration ⟨0⟩ .start, .onDuration ⟨1⟩ .start,
    .onDuration ⟨1⟩ .reverse, .onClock ⟨0⟩ (.advance 100)]

/-- Raw and eased progress of the first one fail alike; those of the second one are at opposite
ends. -/
theorem progress_eases_fraction_returned :
    returned.hasLength ⟨0⟩ = true ∧ returned.hasLength ⟨1⟩ = false ∧
      (returned.fraction ⟨0⟩ >>= (returned.easing ⟨0⟩).eval) = .error .divisionByZero ∧
      returned.progress ⟨0⟩ = .error .divisionByZero ∧
      returned.fraction ⟨1⟩ = .ok 1.0 ∧ returned.progress ⟨1⟩ = .ok 0.0 ∧
      returned.progress ⟨1⟩ ≠ returned.fraction ⟨1⟩ >>= (returned.easing ⟨1⟩).eval := by
  have hfirst : returned.hasLength ⟨0⟩ = true := by decide
  have hsecond : returned.hasLength ⟨1⟩ = false := by decide
  have hfault : (returned.fraction ⟨0⟩ >>= (returned.easing ⟨0⟩).eval) = .error .divisionByZero := by
    decide +kernel
  obtain ⟨-, -, -, hwith, -⟩ := progress_eases_fraction returned ⟨0⟩
  obtain ⟨-, -, -, -, hwithout⟩ := progress_eases_fraction returned ⟨1⟩
  obtain ⟨hfraction, -, hreturned⟩ := hwithout hsecond
  obtain ⟨hprogress, -, hne⟩ := hreturned (by decide)
  exact ⟨hfirst, hsecond, hfault, (hwith hfirst).trans hfault, hfraction, hprogress, hne .linear rfl⟩

end World

end Tween
