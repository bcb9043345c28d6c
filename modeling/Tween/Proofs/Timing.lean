import Tween.Proofs.Action

namespace Tween

variable {κ : Type}

def DurationOp.asks : DurationOp → Bool
  | .poll | .consume => true
  | _ => false

def Op.isClock : Op → Bool
  | .setMonotonic _ | .onClock .. => true
  | _ => false

def Op.isSetting : Op → Bool
  | .onLength .. | .onDescription .. => true
  | _ => false

namespace Timer

variable (t : Timer) (now length : Int)

/-- The timing state after an operation, at a reading of the clock and a length. -/
def respond : DurationOp → Timer
  | .start => t.start now
  | .reverse => t.reverse now length
  | .poll | .consume => if t.due now length then t.consumed else t
  | _ => t

theorem finished_iff :
    t.finished now length = true ↔ ∀ s, t.startedAt = some s → length ≤ now - s := by
  cases h : t.startedAt <;> simp [finished, elapsed, h]

theorem phase_eq_running_iff : t.phase now length = .running ↔ t.finished now length = false := by
  unfold phase
  split
  · simp_all
  · split <;> simp_all

theorem phase_eq_completed_iff :
    t.phase now length = .completed ↔ t.finished now length = true ∧ t.pending = true := by
  unfold phase
  split
  · simp_all
  · split <;> simp_all

theorem phase_eq_idle_iff :
    t.phase now length = .idle ↔ t.finished now length = true ∧ t.pending = false := by
  unfold phase
  split
  · simp_all
  · split <;> simp_all

theorem due_eq : t.due now length = (t.finished now length && t.pending) := by
  rw [Bool.eq_iff_iff, due, decide_eq_true_iff, phase_eq_completed_iff, Bool.and_eq_true]

/-- Only a start makes a completion pending, and only reporting it ends that. -/
theorem pending_respond {op : DurationOp} (h : op ≠ .start) :
    (t.respond now length op).pending = (t.pending && !(op.asks && t.due now length)) := by
  cases op
  case start => exact absurd rfl h
  case poll | consume =>
    cases hd : t.due now length
    · simp [respond, DurationOp.asks, hd]
    · simp [respond, DurationOp.asks, hd, consumed]
  all_goals simp [respond, reverse, DurationOp.asks]

theorem respond_of_ne {op : DurationOp} (hs : op ≠ .start) (hr : op ≠ .reverse) :
    (t.respond now length op).startedAt = t.startedAt ∧
      (t.respond now length op).reversed = t.reversed := by
  cases op
  case start => exact absurd rfl hs
  case reverse => exact absurd rfl hr
  case poll | consume =>
    rw [respond]
    split <;> exact ⟨rfl, rfl⟩
  all_goals exact ⟨rfl, rfl⟩

theorem le_of_startedAt_reverse {t : Timer} {now length start : Int}
    (h : (t.reverse now length).startedAt = some start) : start ≤ now := by
  have hspent : t.spent now length ≤ length := by
    unfold spent
    split
    · exact Int.le_refl _
    · exact Int.min_le_right _ _
  have hstart : now - (length - t.spent now length) = start := Option.some.inj h
  omega

/-- What has not been started later than now has not been after an operation, whatever the length. -/
theorem le_of_startedAt_respond {t : Timer} {now length : Int} (op : DurationOp)
    (ht : ∀ start, t.startedAt = some start → start ≤ now) {start : Int}
    (h : (t.respond now length op).startedAt = some start) : start ≤ now := by
  by_cases hs : op = .start
  · subst hs
    simp only [respond, Timer.start, Option.some.injEq] at h
    omega
  · by_cases hr : op = .reverse
    · subst hr
      exact le_of_startedAt_reverse h
    · apply ht
      rw [← h, (t.respond_of_ne now length hs hr).1]

end Timer

namespace World

/-- The world `w'` is `w` with the timing state `t` of one duration, up to notices. -/
structure Retimed (w w' : World κ) (d : Ref Duration) (t : Timer) : Prop where
  frame : w' = { w with durations := w'.durations, journal := w'.journal }
  durations (q : Ref Duration) :
    w'.durations.get q =
      if d = q then { w.durations.get q with timer := t } else w.durations.get q
  writes : w'.writes = w.writes
  reports : w'.reports = w.reports

structure Reconfigured (w w' : World κ) : Prop where
  frame : w' = { w with
    lengths := w'.lengths, descriptions := w'.descriptions, journal := w'.journal }
  writes : w'.writes = w.writes
  reports : w'.reports = w.reports

theorem Retimed.refl (w : World κ) (d : Ref Duration) : w.Retimed w d (w.timer d) where
  frame := rfl
  durations p := by
    split
    · next h => subst h; rfl
    · rfl
  writes := rfl
  reports := rfl

theorem Retimed.of_looked {w w' : World κ} {d q : Ref Duration} {count : Nat} {t : Timer}
    (h : (w.looked q count).Retimed w' d t) : w.Retimed w' d t where
  frame := h.frame
  durations := h.durations
  writes := h.writes.trans (w.writes_looked q count)
  reports := h.reports.trans (w.reports_looked q count)

theorem Retimed.looked (w : World κ) (d q : Ref Duration) (count : Nat) :
    w.Retimed (w.looked q count) d (w.timer d) :=
  of_looked (refl (w.looked q count) d)

theorem Retimed.thenLooked {w w' : World κ} {d : Ref Duration} {t : Timer}
    (h : w.Retimed w' d t) (q : Ref Duration) (count : Nat) :
    w.Retimed (w'.looked q count) d t where
  frame := by
    rw [h.frame]
    rfl
  durations := h.durations
  writes := (w'.writes_looked q count).trans h.writes
  reports := (w'.reports_looked q count).trans h.reports

theorem Retimed.withTimer {w w' : World κ} {d : Ref Duration} {t : Timer}
    (h : w.Retimed w' d t) (f : Timer → Timer) : w.Retimed (w'.withTimer d f) d (f t) where
  frame := by
    rw [h.frame]
    rfl
  durations q := by
    rw [get_withTimer, timer, h.durations]
    split <;> rfl
  writes := h.writes
  reports := h.reports

namespace Retimed

variable {w w' : World κ} {d : Ref Duration} {t : Timer}

theorem timer (h : w.Retimed w' d t) (q : Ref Duration) :
    w'.timer q = if d = q then t else w.timer q := by
  rw [World.timer, h.durations]
  split <;> rfl

theorem nowOf (h : w.Retimed w' d t) (q : Ref Duration) : w'.nowOf q = w.nowOf q := by
  have hclock : (w'.durations.get q).clock = (w.durations.get q).clock := by
    rw [h.durations]
    split <;> rfl
  rw [World.nowOf, hclock, h.frame]
  rfl

theorem source (h : w.Retimed w' d t) (q : Ref Duration) :
    (w'.durations.get q).source = (w.durations.get q).source := by
  rw [h.durations]
  split <;> rfl

theorem length (h : w.Retimed w' d t) (q : Ref Duration) : w'.length q = w.length q := by
  rw [World.length, h.source, h.frame]
  rfl

theorem easing (h : w.Retimed w' d t) (q : Ref Duration) : w'.easing q = w.easing q := by
  have hsmoothing : (w'.durations.get q).smoothing = (w.durations.get q).smoothing := by
    rw [h.durations]
    split <;> rfl
  rw [World.easing, h.source, hsmoothing, h.frame]
  rfl

end Retimed

end World

namespace Act

open World

variable (w : World κ) (d : Ref Duration)

theorem perform_poll :
    (poll d).perform w =
      if w.finished d then (consume d).perform (w.looked d (w.lookups d))
      else (.ok true, w.looked d (w.lookups d)) := by
  rw [poll, perform_get_bind, perform_bind_ok _ (perform_noteLookups d _ w), perform_get_bind]
  change (if w.finished d = true then _ else _ : Act κ Bool).perform _ = _
  split <;> rfl

theorem retimed_consume :
    w.Retimed ((consume d).perform w).2 d
      ((w.timer d).respond (w.nowOf d) (w.length d) .consume) := by
  rw [perform_consume]
  have h := Retimed.looked w d d (w.lookups d)
  by_cases hd : w.due d = true
  · simp only [if_pos hd, Timer.respond]
    rw [if_pos (show (w.timer d).due (w.nowOf d) (w.length d) = true from hd)]
    exact h.withTimer _
  · simp only [if_neg hd, Timer.respond]
    rw [if_neg (show ¬(w.timer d).due (w.nowOf d) (w.length d) = true from hd)]
    exact h

theorem retimed_poll :
    w.Retimed ((poll d).perform w).2 d ((w.timer d).respond (w.nowOf d) (w.length d) .poll) := by
  rw [perform_poll]
  split
  · exact (retimed_consume (w.looked d (w.lookups d)) d).of_looked
  · next hf =>
    have hdue : (w.timer d).due (w.nowOf d) (w.length d) = false := by
      rw [Timer.due_eq, show (w.timer d).finished _ _ = false from Bool.eq_false_iff.mpr hf]
      rfl
    rw [Timer.respond, hdue]
    exact Retimed.looked w d d _

end Act

namespace World

open Act

variable (w : World κ) (d : Ref Duration)

theorem step_onDuration (op : DurationOp) :
    w.Retimed (w.step (.onDuration d op)).2 d
      ((w.timer d).respond (w.nowOf d) (w.length d) op) := by
  change w.Retimed ((durationOp d op).perform w).2 d _
  cases op with
  | start =>
    rw [durationOp, perform_bind_pure, perform_start]
    exact (Retimed.refl w d).withTimer (·.start (w.nowOf d))
  | reverse =>
    rw [durationOp, perform_bind_pure, perform_reverse]
    exact (Retimed.looked w d d 1).withTimer (·.reverse (w.nowOf d) (w.length d))
  | phase =>
    rw [durationOp, perform_bind_pure, perform_phase]
    exact Retimed.looked w d d _
  | length =>
    rw [durationOp, perform_bind_pure, perform_length]
    exact Retimed.looked w d d 1
  | elapsed => exact Retimed.refl w d
  | progress =>
    rw [durationOp, perform_bind_pure, perform_progress]
    exact Retimed.looked w d d _
  | fraction =>
    rw [durationOp, perform_bind_pure, perform_query]
    exact Retimed.refl w d
  | poll =>
    rw [durationOp, perform_bind_pure]
    exact retimed_poll w d
  | consume =>
    rw [durationOp, perform_bind_pure]
    exact retimed_consume w d
  | direction => exact Retimed.refl w d
  | easing => exact Retimed.refl w d
  | shown =>
    rw [durationOp, perform_bind_pure, perform_durationText]
    exact Retimed.looked w d d _

theorem due_eq : w.due d = (w.finished d && (w.timer d).pending) :=
  Timer.due_eq _ _ _

theorem finished_of_due {w : World κ} {d : Ref Duration} (h : w.due d = true) :
    w.finished d = true := by
  rw [due_eq, Bool.and_eq_true] at h
  exact h.1

theorem phase_eq_running_iff : w.phase d = .running ↔ w.finished d = false :=
  Timer.phase_eq_running_iff _ _ _

theorem phase_ne_running_iff : w.phase d ≠ .running ↔ w.finished d = true := by
  rw [Ne, phase_eq_running_iff, Bool.not_eq_false]

theorem one_le_length : 1 ≤ w.length d := by
  unfold length
  split
  · exact Int.le_refl 1
  · exact Int.le_max_left ..
  · exact Int.le_max_left ..

theorem step_isClock {op : Op} (h : op.isClock = true) :
    (w.step op).2 =
      { w with monotonic := (w.step op).2.monotonic, clocks := (w.step op).2.clocks } := by
  cases op with
  | setMonotonic ns => rfl
  | onClock r op =>
    cases op with
    | read => rfl
    | advance ms =>
      rw [show w.step (.onClock r (.advance ms)) = (clockOp r (.advance ms)).perform w from rfl,
        clockOp, perform_bind_pure, perform_advance]
      split <;> rfl
    | reset now => rfl
  | _ => cases h

theorem Reconfigured.refl : w.Reconfigured w := ⟨rfl, rfl, rfl⟩

theorem Reconfigured.note (notice : Notice) :
    w.Reconfigured { w with journal := w.journal ++ [.noted notice] } where
  frame := rfl
  writes := by simp [World.writes]
  reports := by simp [World.reports]

theorem step_isSetting {op : Op} (h : op.isSetting = true) : w.Reconfigured (w.step op).2 := by
  cases op with
  | onLength r op =>
    change w.Reconfigured ((lengthOp r op).perform w).2
    cases op with
    | name | value | default => exact .refl w
    | set n => exact ⟨rfl, rfl, rfl⟩
    | setText text =>
      rw [lengthOp, perform_bind_pure, perform_setLengthText]
      rcases Text.Whole.read? text with _ | _ | n
      · exact .refl w
      · exact .note w _
      · exact ⟨rfl, rfl, rfl⟩
    | reset => exact ⟨rfl, rfl, rfl⟩
    | shown =>
      rw [lengthOp, perform_get_bind, perform_bind_pure, perform_query]
      exact .refl w
  | onDescription r op =>
    change w.Reconfigured ((descriptionOp r op).perform w).2
    cases op with
    | name | value | default => exact .refl w
    | set a => exact ⟨rfl, rfl, rfl⟩
    | setText text =>
      rw [descriptionOp, perform_bind_pure, perform_setDescriptionText]
      rcases Description.read? text with _ | _ | a
      · exact .refl w
      · exact .note w _
      · exact ⟨rfl, rfl, rfl⟩
    | reset => exact ⟨rfl, rfl, rfl⟩
    | shown =>
      rw [descriptionOp, perform_get_bind, perform_bind_pure, perform_query]
      exact .refl w
  | _ => cases h

theorem outcome_poll :
    (w.step (.onDuration d .poll)).1 = .ok (.flag (!w.finished d || (w.timer d).pending)) := by
  change ((durationOp d .poll).perform w).1 = _
  rw [durationOp, perform_bind_pure, perform_poll]
  cases hf : w.finished d
  · rfl
  · rw [if_pos rfl, perform_consume]
    change Except.ok (Reply.flag ((w.timer d).due (w.nowOf d) (w.length d))) = _
    rw [Timer.due_eq, show (w.timer d).finished _ _ = true from hf]
    rfl

theorem outcome_consume :
    (w.step (.onDuration d .consume)).1 = .ok (.flag (w.finished d && (w.timer d).pending)) := by
  change ((durationOp d .consume).perform w).1 = _
  rw [durationOp, perform_bind_pure, perform_consume]
  change Except.ok (Reply.flag ((w.timer d).due (w.nowOf d) (w.length d))) = _
  rw [Timer.due_eq]
  rfl

end World

end Tween
