import Tween.Proofs.Completion
import Tween.Proofs.Twins
import Tween.Proofs.UnitInterval

namespace Tween

variable {κ : Type}

def Call.withCopy (family : List (Ref Duration)) (c : Call κ) : List (Ref Duration) :=
  match c.op, c.outcome with
  | .clone q, .ok (.made (.duration r)) => if family.contains q then family ++ [r] else family
  | _, _ => family

namespace World

/-- A duration, the copies that a run makes of it, and the copies of those. -/
def family (w : World κ) (d : Ref Duration) (ops : List Op) : List (Ref Duration) :=
  (w.calls ops).foldl Call.withCopy [d]

/-- The duration `q` is on this clock, and has not been started later than the clock reads. -/
structure Timely (w : World κ) (clock : Clock) (q : Ref Duration) : Prop where
  known : q.index < w.durations.next
  onClock : (w.durations.get q).clock = clock
  startedAt : ∀ start, (w.timer q).startedAt = some start → start ≤ w.now clock

namespace Timely

variable {w : World κ} {clock : Clock} {d q : Ref Duration}

theorem nowOf (h : w.Timely clock q) : w.nowOf q = w.now clock := by
  rw [World.nowOf, h.onClock]

theorem of_new (hd : d.index < w.durations.next) (hnew : w.timer d = {}) :
    w.Timely (w.durations.get d).clock d := by
  refine ⟨hd, rfl, fun start hstart => ?_⟩
  rw [hnew] at hstart
  cases hstart

theorem clone (h : w.Timely clock q) :
    (w.step (.clone q)).2.Timely clock ⟨w.durations.next⟩ := by
  have hcopy : (w.step (.clone q)).2.durations.get ⟨w.durations.next⟩ = w.durations.get q :=
    Store.get_add_self _ _
  refine ⟨Nat.lt_succ_self _, by rw [hcopy, h.onClock], fun start hstart => ?_⟩
  rw [World.timer, hcopy] at hstart
  exact h.startedAt start hstart

/-- No operation starts a duration later than now, so it is the clock alone that has to go on. -/
theorem step (h : w.Timely clock q) {op : Op} (hop : op.isTiming = true ∨ ∃ p, op = .clone p)
    (hnow : w.now clock ≤ (w.step op).2.now clock) : (w.step op).2.Timely clock q := by
  obtain ⟨hknown, t, hget, -⟩ := holding_step w h.known op
  refine ⟨hknown, by rw [hget, ← h.onClock], fun start hstart => ?_⟩
  have hbefore : start ≤ w.now clock := by
    rcases hop with htiming | ⟨p, rfl⟩
    · by_cases hq : ∃ o, op = .onDuration q o
      · obtain ⟨o, rfl⟩ := hq
        rw [timer_onDuration, h.nowOf] at hstart
        exact Timer.le_of_startedAt_respond o h.startedAt hstart
      · rw [timer_of_ne w q htiming fun o ho => hq ⟨o, ho⟩] at hstart
        exact h.startedAt start hstart
    · rw [step_clone, World.timer, Store.get_add_of_lt _ _ h.known] at hstart
      exact h.startedAt start hstart
  omega

theorem withCopy {family : List (Ref Duration)} (h : ∀ q ∈ family, w.Timely clock q) {op : Op}
    (hop : op.isTiming = true ∨ ∃ p, op = .clone p)
    (hnow : w.now clock ≤ (w.step op).2.now clock) :
    ∀ q ∈ Call.withCopy family ⟨w, op⟩, (w.step op).2.Timely clock q := by
  have hold : ∀ q ∈ family, (w.step op).2.Timely clock q := fun q hq => (h q hq).step hop hnow
  unfold Call.withCopy
  split
  · next p r hclone houtcome =>
    split
    · next hp =>
      -- The reply names the place of the copy.
      change op = .clone p at hclone
      subst hclone
      cases houtcome
      intro q hq
      rcases List.mem_append.mp hq with hq | hq
      · exact hold q hq
      · rw [List.mem_singleton.mp hq]
        exact (h p (by simpa using hp)).clone
    · exact hold
  · exact hold

theorem subset_withCopy (family : List (Ref Duration)) (c : Call κ) :
    family ⊆ c.withCopy family := by
  unfold Call.withCopy
  split
  · split
    · exact List.subset_append_left _ _
    · exact List.Subset.refl _
  · exact List.Subset.refl _

theorem run {family : List (Ref Duration)} (h : ∀ q ∈ family, w.Timely clock q) (hd : d ∈ family)
    {ops : List Op} (hops : ∀ op ∈ ops, op.isTiming = true ∨ ∃ p, op = .clone p)
    (hnow : ∀ c ∈ w.calls ops, c.before.nowOf d ≤ c.after.nowOf d) :
    ∀ q ∈ (w.calls ops).foldl Call.withCopy family, (w.after ops).Timely clock q := by
  induction ops generalizing w family with
  | nil => exact h
  | cons op rest ih =>
    simp only [calls, List.forall_mem_cons] at hops hnow
    have hclock : ((w.step op).2.durations.get d).clock = clock := by
      obtain ⟨-, t, hget, -⟩ := holding_step w (h d hd).known op
      rw [hget, ← (h d hd).onClock]
    have hhead : w.now clock ≤ (w.step op).2.now clock := by
      rw [← (h d hd).nowOf, ← hclock]
      exact hnow.1
    exact ih (withCopy h hops.1 hhead) (subset_withCopy _ _ hd) hops.2 hnow.2

theorem elapsed_nonneg (h : w.Timely clock q) {e : Int} (he : w.elapsed q = some e) : 0 ≤ e := by
  rw [elapsed, Timer.elapsed, Option.map_eq_some_iff] at he
  obtain ⟨start, hstart, rfl⟩ := he
  have := h.startedAt start hstart
  rw [h.nowOf]
  omega

theorem fraction (h : w.Timely clock q) {e : Int} (hlength : w.hasLength q = true)
    (he : w.elapsed q = some e) (hless : ¬w.length q ≤ e) :
    w.fraction q = (w.timer q).fractionAt e (w.length q) ∧ 0 ≤ e ∧ e < w.length q ∧
      ∃ x, Number.quotient e (w.length q) = .ok x := by
  have h₀ := h.elapsed_nonneg he
  have h₁ : e < w.length q := Int.not_le.mp hless
  refine ⟨?_, h₀, h₁, _, Number.quotient_of_lt h₀ h₁⟩
  rw [elapsed] at he
  rw [World.fraction, if_pos hlength, Timer.fraction, he]
  exact if_neg hless

end Timely

/-- On a clock that never goes back, a duration that was new and all its copies have started no
later than now, so no division and nothing that is asked of their timing is a fault. -/
theorem timing_safe (w : World κ) (d : Ref Duration) (hd : d.index < w.durations.next)
    (hnew : w.timer d = {}) (ops : List Op)
    (hops : ∀ op ∈ ops, op.isTiming = true ∨ ∃ q, op = .clone q)
    (hnow : ∀ c ∈ w.calls ops, c.before.nowOf d ≤ c.after.nowOf d) :
    let u := w.after ops
    ∀ q ∈ w.family d ops,
      (∀ e, u.elapsed q = some e → 0 ≤ e) ∧ 1 ≤ u.length q ∧
      (∀ e, u.hasLength q = true → u.elapsed q = some e → ¬u.length q ≤ e →
        u.fraction q = (u.timer q).fractionAt e (u.length q) ∧ 0 ≤ e ∧ e < u.length q ∧
          ∃ x, Number.quotient e (u.length q) = .ok x) ∧
      ∀ op ∈ [DurationOp.phase, .fraction, .poll, .consume, .reverse],
        (u.step (.onDuration q op)).1.isOk = true := by
  intro u q hq
  have hold : ∀ q ∈ [d], w.Timely (w.durations.get d).clock q := by
    simp only [List.mem_singleton, forall_eq]
    exact .of_new hd hnew
  have htimely := Timely.run hold (List.mem_singleton_self d) hops hnow q hq
  refine ⟨fun e => htimely.elapsed_nonneg, u.one_le_length q, fun e => htimely.fraction, ?_⟩
  simp only [List.forall_mem_cons]
  refine ⟨?_, ?_, ?_, ?_, rfl, by simp⟩
  · change ((Act.durationOp q .phase).perform u).1.isOk = true
    rw [Act.durationOp, Act.perform_bind_pure, Act.perform_phase]
    rfl
  · change ((Act.durationOp q .fraction).perform u).1.isOk = true
    rw [Act.durationOp, Act.perform_bind_pure, Act.perform_query]
    obtain ⟨x, -, hx, -⟩ := exists_fraction fun start hstart =>
      htimely.nowOf ▸ htimely.startedAt start hstart
    rw [hx]
    rfl
  · rw [outcome_poll]
    rfl
  · rw [outcome_consume]
    rfl

/-- With a length that shrinks and grows in flight, and a copy that a longer one opens again. -/
theorem timing_safe_copied :
    let ops : List Op := [.onDuration ⟨0⟩ .start, .onClock ⟨0⟩ (.advance 30),
      .onLength ⟨0⟩ (.set (-5)), .onDuration ⟨0⟩ .reverse, .onLength ⟨0⟩ (.set 400),
      .onDuration ⟨0⟩ .reverse, .clone ⟨0⟩, .onClock ⟨0⟩ (.advance 7), .onLength ⟨0⟩ (.set 1000)]
    let u := (solo 100).after ops
    (solo 100).family ⟨0⟩ ops = [⟨0⟩, ⟨1⟩] ∧
      u.fraction ⟨1⟩ = (u.timer ⟨1⟩).fractionAt 407 1000 ∧ ∃ x, Number.quotient 407 1000 = .ok x := by
  intro ops u
  have hnow : ∀ c ∈ (solo 100).calls ops, c.before.nowOf ⟨0⟩ ≤ c.after.nowOf ⟨0⟩ := by decide
  have hops : ∀ op ∈ ops, op.isTiming = true ∨ ∃ q, op = .clone q := by
    simp [ops, Op.isTiming]
  obtain ⟨-, -, hdivides, -⟩ :=
    timing_safe (solo 100) ⟨0⟩ (by decide) (by decide) ops hops hnow ⟨1⟩ (by decide)
  obtain ⟨hfraction, -, -, hquotient⟩ := hdivides 407 (by decide) (by decide) (by decide)
  exact ⟨by decide, hfraction, hquotient⟩

end World

end Tween
