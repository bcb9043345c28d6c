import Tween.Proofs.Completion

namespace Tween

variable {κ : Type}

namespace Op

/-- Whether an operation on a duration, a clock or a setting leaves the start of `d` and its
direction alone. -/
def keepsStart (d : Ref Duration) : Op → Bool
  | .onDuration q .start | .onDuration q .reverse => q ≠ d
  | op => op.isTiming

theorem isTiming_of_keepsStart {d : Ref Duration} {op : Op} (h : op.keepsStart d = true) :
    op.isTiming = true := by
  cases op with
  | onDuration q o => rfl
  | _ => exact h

end Op

namespace Timer

theorem respond_of_not_pending {t : Timer} {op : DurationOp} (hp : t.pending = false)
    (hs : op ≠ .start) (hr : op ≠ .reverse) (now length : Int) : t.respond now length op = t := by
  have hdue : t.due now length = false := by rw [due_eq, hp, Bool.and_false]
  cases op with
  | start => exact absurd rfl hs
  | reverse => exact absurd rfl hr
  | poll | consume => simp [respond, hdue]
  | _ => rfl

end Timer

namespace World

variable (d : Ref Duration)

theorem timer_of_keepsStart {w : World κ} {op : Op} (h : op.keepsStart d = true)
    (hp : (w.timer d).pending = false) : (w.step op).2.timer d = w.timer d := by
  by_cases hd : ∃ o, op = .onDuration d o
  · obtain ⟨o, rfl⟩ := hd
    rw [timer_onDuration]
    apply Timer.respond_of_not_pending hp
    · rintro rfl
      simp [Op.keepsStart] at h
    · rintro rfl
      simp [Op.keepsStart] at h
  · exact timer_of_ne _ _ (Op.isTiming_of_keepsStart h) fun o ho => hd ⟨o, ho⟩

/-- With nothing pending, operations that leave the start alone leave all of the timing state. -/
theorem timer_after_of_keepsStart {w : World κ} {ops : List Op}
    (hops : ∀ op ∈ ops, op.keepsStart d = true) (hp : (w.timer d).pending = false) :
    (w.after ops).timer d = w.timer d := by
  apply after_of_forall_calls w (P := fun v => v.timer d = w.timer d) rfl
  intro c hc hv
  refine (timer_of_keepsStart d (hops _ (w.op_mem_of_mem_calls hc)) ?_).trans hv
  rw [hv, hp]

theorem timer_of_reports {c : Call κ} (h : c.reports d = true) :
    c.before.finished d = true ∧ c.after.timer d = (c.before.timer d).consumed ∧
      c.after.nowOf d = c.before.nowOf d := by
  obtain ⟨w, op⟩ := c
  by_cases hd : ∃ o, op = .onDuration d o
  · obtain ⟨o, rfl⟩ := hd
    rw [reports_onDuration, Bool.and_eq_true] at h
    obtain ⟨hasks, hdue⟩ := h
    have hfinished := hdue
    rw [due_eq, Bool.and_eq_true] at hfinished
    refine ⟨hfinished.1, ?_, (w.step_onDuration d o).nowOf d⟩
    rw [Call.after, timer_onDuration]
    cases o with
    | poll | consume => exact if_pos hdue
    | _ => cases hasks
  · -- Only operations on the duration itself can report it.
    rw [Call.reports, w.asks_of_ne d fun o ho => hd ⟨o, ho⟩] at h
    cases h

theorem le_nowOf_after {w : World κ} {ops : List Op}
    (h : ∀ c ∈ w.calls ops, c.before.nowOf d ≤ c.after.nowOf d) :
    w.nowOf d ≤ (w.after ops).nowOf d :=
  after_of_forall_calls w (P := fun v => w.nowOf d ≤ v.nowOf d) (Int.le_refl _) fun c hc hv =>
    Int.le_trans hv (h c hc)

/-- After a completion has been reported, and until a start or a turn, the duration is over exactly
while its length is within the time since the start, and runs again otherwise. -/
theorem over_iff_after_report (c : Call κ) (d : Ref Duration) (hreport : c.reports d = true)
    (ops : List Op) (hops : ∀ op ∈ ops, op.keepsStart d = true) :
    let u := c.after.after ops
    (u.phase d = .idle ↔ ∀ e, u.elapsed d = some e → u.length d ≤ e) ∧
    (u.phase d ≠ .idle → u.phase d = .running) ∧
    (u.step (.onDuration d .poll)).1 = .ok (.flag (u.phase d = .running)) ∧
    (u.step (.onDuration d .consume)).1 = .ok (.flag false) ∧
    (u.phase d = .idle → u.progress d =
      (u.easing d).eval (if (c.before.timer d).reversed then 0.0 else 1.0)) ∧
    ((∀ a ∈ c.after.calls ops, a.before.nowOf d ≤ a.after.nowOf d) →
      u.length d ≤ c.before.length d → u.phase d = .idle) := by
  intro u
  obtain ⟨hbefore, htimer, hnow⟩ := timer_of_reports d hreport
  have hkept : u.timer d = (c.before.timer d).consumed := by
    rw [timer_after_of_keepsStart d hops (by rw [htimer]; rfl), htimer]
  have hpending : (u.timer d).pending = false := by rw [hkept]; rfl
  have hidle : u.phase d = .idle ↔ u.finished d = true := by
    have := Timer.phase_eq_idle_iff (u.timer d) (u.nowOf d) (u.length d)
    rwa [hpending, eq_self_iff_true, and_true] at this
  refine ⟨?_, ?_, ?_, ?_, ?_, ?_⟩
  · rw [hidle, finished, Timer.finished_iff, elapsed, Timer.elapsed]
    simp
  · rw [Ne, hidle, Bool.not_eq_true]
    exact (u.phase_eq_running_iff d).mpr
  · rw [outcome_poll, hpending, Bool.or_false]
    cases hf : u.finished d <;> simp [phase_eq_running_iff, hf]
  · rw [outcome_consume, hpending, Bool.and_false]
  · intro h
    rw [progress, if_pos (hidle.mp h), hkept]
    rfl
  · -- The start is the one of the report, the clock is no earlier, the length no longer.
    intro hclock hlength
    have hlater : c.after.nowOf d ≤ u.nowOf d := le_nowOf_after d hclock
    rw [hidle, finished, Timer.finished_iff]
    rw [finished, Timer.finished_iff] at hbefore
    intro start hstart
    have hstart' : (c.before.timer d).startedAt = some start := by
      rw [hkept] at hstart
      exact hstart
    have := hbefore start hstart'
    omega

/-- Reported at its length of 100 ms, a duration is over at 100 ms of any shorter length. -/
theorem over_iff_after_report_shortened :
    let v := (solo 100).after [.onDuration ⟨0⟩ .start, .onClock ⟨0⟩ (.advance 100)]
    let u := (Call.mk v (.onDuration ⟨0⟩ .poll)).after.after [.onLength ⟨0⟩ (.set 60)]
    (Call.mk v (.onDuration ⟨0⟩ .poll)).reports ⟨0⟩ = true ∧ u.phase ⟨0⟩ = .idle ∧
      (u.step (.onDuration ⟨0⟩ .consume)).1 = .ok (.flag false) := by
  intro v u
  have hreport : (Call.mk v (.onDuration ⟨0⟩ .poll)).reports ⟨0⟩ = true := by decide
  obtain ⟨-, -, -, hconsume, -, hover⟩ := over_iff_after_report (Call.mk v (.onDuration ⟨0⟩ .poll))
    ⟨0⟩ hreport [.onLength ⟨0⟩ (.set 60)] (by decide)
  exact ⟨hreport, hover (by decide) (by decide), hconsume⟩

/-- Reported at its length of 100 ms, a duration that is given 200 ms then runs again, without a
start or a turn, and polls say so. -/
theorem running_again_after_report :
    let v := (solo 100).after [.onDuration ⟨0⟩ .start, .onClock ⟨0⟩ (.advance 100)]
    let u := (Call.mk v (.onDuration ⟨0⟩ .poll)).after.after [.onLength ⟨0⟩ (.set 200)]
    (Call.mk v (.onDuration ⟨0⟩ .poll)).reports ⟨0⟩ = true ∧ u.phase ⟨0⟩ = .running ∧
      (u.step (.onDuration ⟨0⟩ .poll)).1 = .ok (.flag true) ∧
      u.progress ⟨0⟩ ≠ (u.easing ⟨0⟩).eval 1.0 := by
  refine ⟨by decide, by decide, rfl, ?_⟩
  decide +kernel

end World

end Tween
