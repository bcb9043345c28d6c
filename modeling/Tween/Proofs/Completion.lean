import Mathlib.Data.List.Chain
import Tween.Proofs.Calls

namespace Tween

variable {κ : Type}

namespace Op

def isTiming : Op → Bool
  | .onDuration .. | .setMonotonic _ | .onClock .. | .onLength .. | .onDescription .. => true
  | _ => false

def polls (d : Ref Duration) : Op → Bool
  | .onDuration q .poll => q = d
  | _ => false

def watches (d : Ref Duration) : Op → Bool
  | .onDuration q .start | .onDuration q .reverse | .onDuration q .consume => q ≠ d
  | op => op.isTiming

theorem isTiming_cases {op : Op} (h : op.isTiming = true) :
    op.isClock = true ∨ op.isSetting = true ∨ ∃ d o, op = .onDuration d o := by
  cases op with
  | onDuration d o => exact .inr (.inr ⟨d, o, rfl⟩)
  | setMonotonic | onClock => exact .inl rfl
  | onLength | onDescription => exact .inr (.inl rfl)
  | _ => cases h

theorem isTiming_of_watches {d : Ref Duration} {op : Op} (h : op.watches d = true) :
    op.isTiming = true := by
  cases op with
  | onDuration q o => rfl
  | _ => exact h

theorem eq_of_polls {d : Ref Duration} {op : Op} (h : op.polls d = true) :
    op = .onDuration d .poll := by
  cases op with
  | onDuration q o =>
    cases o with
    | poll => rw [of_decide_eq_true h]
    | _ => cases h
  | _ => cases h

end Op

namespace Call

variable (c : Call κ) (d : Ref Duration)

/-- Whether a call consumes the completion of `d`, or polls `d` once its length has passed. -/
def asks : Bool :=
  match c.op with
  | .onDuration q .consume => q = d
  | .onDuration q .poll => q = d && c.before.finished d
  | _ => false

def affirms : Bool :=
  match c.outcome with
  | .ok (.flag b) => b
  | _ => false

def reports : Bool :=
  c.asks d && c.affirms

def Steady : Prop :=
  c.before.nowOf d ≤ c.after.nowOf d ∧ c.after.length d = c.before.length d

instance : Decidable (c.Steady d) :=
  inferInstanceAs (Decidable (_ ∧ _))

end Call

namespace World

variable (w : World κ) (d : Ref Duration)

theorem timer_of_ne {op : Op} (h : op.isTiming = true) (hd : ∀ o, op ≠ .onDuration d o) :
    (w.step op).2.timer d = w.timer d := by
  rcases Op.isTiming_cases h with h | h | ⟨q, o, rfl⟩
  · rw [w.step_isClock h]
    rfl
  · rw [(w.step_isSetting h).frame]
    rfl
  · rw [(w.step_onDuration q o).timer, if_neg]
    rintro rfl
    exact hd o rfl

theorem timer_onDuration (op : DurationOp) :
    (w.step (.onDuration d op)).2.timer d =
      (w.timer d).respond (w.nowOf d) (w.length d) op := by
  rw [(w.step_onDuration d op).timer, if_pos rfl]

theorem asks_of_ne {op : Op} (hd : ∀ o, op ≠ .onDuration d o) :
    (Call.mk w op).asks d = false := by
  cases op with
  | onDuration q o =>
    have hq : q ≠ d := fun hq => hd o (hq ▸ rfl)
    cases o <;> simp [Call.asks, hq]
  | _ => rfl

theorem reports_onDuration (op : DurationOp) :
    (Call.mk w (.onDuration d op)).reports d = (op.asks && w.due d) := by
  rw [due_eq]
  cases op
  case poll =>
    simp only [Call.reports, Call.asks, Call.affirms, Call.outcome, outcome_poll,
      DurationOp.asks]
    cases w.finished d <;> simp
  case consume =>
    simp only [Call.reports, Call.asks, Call.affirms, Call.outcome, outcome_consume,
      DurationOp.asks]
    simp
  all_goals simp [Call.reports, Call.asks, DurationOp.asks]

end World

namespace Call

variable (d : Ref Duration)

theorem finished_of_reports {c : Call κ} (h : c.reports d = true) :
    c.asks d = true ∧ c.before.finished d = true := by
  have hask := (Bool.and_eq_true_iff.mp h).1
  refine ⟨hask, ?_⟩
  obtain ⟨w, op⟩ := c
  by_cases hd : ∃ o, op = .onDuration d o
  · obtain ⟨o, rfl⟩ := hd
    rw [World.reports_onDuration, World.due_eq, Bool.and_eq_true, Bool.and_eq_true] at h
    exact h.2.1
  · rw [w.asks_of_ne d fun o ho => hd ⟨o, ho⟩] at hask
    cases hask

theorem pending_add_report {c : Call κ} (hop : c.op.isTiming = true)
    (hs : c.op ≠ .onDuration d .start) :
    (c.after.timer d).pending.toNat + (c.reports d).toNat = (c.before.timer d).pending.toNat := by
  obtain ⟨w, op⟩ := c
  by_cases hd : ∃ o, op = .onDuration d o
  · obtain ⟨o, rfl⟩ := hd
    have hne : o ≠ .start := fun ho => hs (ho ▸ rfl)
    rw [World.reports_onDuration, after, World.timer_onDuration, Timer.pending_respond _ _ _ hne]
    change ((w.timer d).pending && !(o.asks && w.due d)).toNat + _ = (w.timer d).pending.toNat
    rw [World.due_eq]
    cases (w.timer d).pending <;> cases o.asks <;> cases w.finished d <;> rfl
  · have hne : ∀ o, op ≠ .onDuration d o := fun o ho => hd ⟨o, ho⟩
    rw [after, World.timer_of_ne _ _ hop hne, reports, World.asks_of_ne _ _ hne]
    rfl

end Call

namespace World

variable (d : Ref Duration)

/-- The reports of a run without a start, and what stays pending, are covered by what was. -/
theorem countP_reports_le {w : World κ} {ops : List Op} (hops : ∀ op ∈ ops, op.isTiming = true)
    (hs : .onDuration d .start ∉ ops) :
    ((w.after ops).timer d).pending.toNat + (w.calls ops).countP (·.reports d) ≤
      (w.timer d).pending.toNat := by
  apply w.countP_le_of_forall_calls fun v => (v.timer d).pending.toNat
  intro c hc
  have hop := w.op_mem_of_mem_calls hc
  exact Nat.le_of_eq (c.pending_add_report d (hops _ hop) fun e => hs (e ▸ hop))

/-- A pending completion stays pending until a call asks for it once the length has passed. -/
theorem pending_of_unasked {w : World κ} {ops : List Op} (hops : ∀ op ∈ ops, op.isTiming = true)
    (hask : ∀ c ∈ w.calls ops, c.asks d = true → c.before.finished d = false)
    (hp : (w.timer d).pending = true) : ((w.after ops).timer d).pending = true := by
  apply after_of_forall_calls w (P := fun v => (v.timer d).pending = true) hp
  intro c hc hpend
  by_cases hs : c.op = .onDuration d .start
  · rw [Call.after, hs, timer_onDuration]
    rfl
  · have hadd := c.pending_add_report d (hops _ (w.op_mem_of_mem_calls hc)) hs
    have hr : c.reports d = false := by
      apply Bool.eq_false_iff.mpr
      intro h
      obtain ⟨ha, hf⟩ := c.finished_of_reports d h
      rw [hask c hc ha] at hf
      cases hf
    rw [hr, hpend] at hadd
    cases hafter : (c.after.timer d).pending
    · rw [hafter] at hadd
      cases hadd
    · rfl

/-- An operation that watches `d` consumes a completion that is due when it polls, and no more. -/
theorem timer_watches {w : World κ} {op : Op} (h : op.watches d = true) :
    (w.step op).2.timer d =
      if op.polls d && w.due d then (w.timer d).consumed else w.timer d := by
  by_cases hd : ∃ o, op = .onDuration d o
  · obtain ⟨o, rfl⟩ := hd
    rw [timer_onDuration]
    cases o
    case start | reverse | consume => simp [Op.watches] at h
    case poll =>
      simp only [Op.polls, decide_true, Bool.true_and]
      rfl
    all_goals rfl
  · have hne : ∀ o, op ≠ .onDuration d o := fun o ho => hd ⟨o, ho⟩
    have hpoll : op.polls d = false := Bool.eq_false_iff.mpr fun hp => hne _ (Op.eq_of_polls hp)
    rw [timer_of_ne _ _ (Op.isTiming_of_watches h) hne, hpoll]
    rfl

/-- While the clock and the length are steady, what has passed stays passed. -/
theorem finished_of_steady {w : World κ} {op : Op} (hop : op.watches d = true)
    (hsteady : (Call.mk w op).Steady d) (hf : w.finished d = true) :
    (w.step op).2.finished d = true := by
  obtain ⟨hnow, hlength⟩ := hsteady
  change w.nowOf d ≤ (w.step op).2.nowOf d at hnow
  change (w.step op).2.length d = w.length d at hlength
  -- Watching does not move the start, so only the reading and the length count.
  have hstart : ((w.step op).2.timer d).startedAt = (w.timer d).startedAt := by
    rw [timer_watches d hop]
    split <;> rfl
  rw [finished, Timer.finished_iff] at hf ⊢
  intro s hs
  have := hf s (hstart ▸ hs)
  omega

theorem outcome_of_polls {w : World κ} {op : Op} (h : op.polls d = true) :
    (Call.mk w op).outcome = .ok (.flag (!w.finished d || (w.timer d).pending)) := by
  rw [Op.eq_of_polls h]
  exact w.outcome_poll d

theorem outcome_after_report {w : World κ} {ops : List Op}
    (hops : ∀ op ∈ ops, op.watches d = true) (hsteady : ∀ c ∈ w.calls ops, c.Steady d)
    (hf : w.finished d = true) (hp : (w.timer d).pending = false) :
    ∀ c ∈ (w.calls ops).filter (·.op.polls d), c.outcome = .ok (.flag false) := by
  have hkept : ∀ c ∈ w.calls ops,
      c.before.finished d = true ∧ (c.before.timer d).pending = false := by
    apply before_of_forall_calls w (P := fun v => v.finished d = true ∧ (v.timer d).pending = false)
      ⟨hf, hp⟩
    rintro ⟨v, op⟩ ha ⟨hv, hq⟩
    have hop := hops op (w.op_mem_of_mem_calls ha)
    refine ⟨finished_of_steady d hop (hsteady _ ha) hv, ?_⟩
    change ((v.step op).2.timer d).pending = false
    rw [timer_watches d hop]
    split
    · rfl
    · exact hq
  rintro ⟨v, op⟩ hc
  obtain ⟨hc, hpoll⟩ := List.mem_filter.mp hc
  obtain ⟨hv, hq⟩ := hkept _ hc
  rw [outcome_of_polls d hpoll, hv, hq]
  rfl

/-- How the polls of a steady run answer one another, when a completion is pending or the length
has passed. -/
theorem polls_answer {w : World κ} {ops : List Op} (hops : ∀ op ∈ ops, op.watches d = true)
    (hsteady : ∀ c ∈ w.calls ops, c.Steady d)
    (hw : (w.timer d).pending = true ∨ w.finished d = true) :
    let polls := (w.calls ops).filter (·.op.polls d)
    ((w.timer d).pending = true → ∀ c ∈ polls.head?, c.outcome = .ok (.flag true)) ∧
      polls.IsChain (fun a b => b.outcome = .ok (.flag !a.before.finished d)) ∧
      polls.Pairwise fun a b => a.before.finished d = true → b.outcome = .ok (.flag false) := by
  -- Each poll leaves a completion pending or finds the length passed.
  induction ops generalizing w with
  | nil => exact ⟨by simp [calls], .nil, .nil⟩
  | cons op rest ih =>
    simp only [calls, List.forall_mem_cons] at hops hsteady
    have htimer := timer_watches d hops.1 (w := w)
    have hfin := finished_of_steady d hops.1 hsteady.1
    simp only [calls, List.filter_cons]
    by_cases hpoll : op.polls d = true
    · simp only [hpoll, if_true, List.isChain_cons, List.pairwise_cons, List.head?_cons,
        Option.mem_some_iff, forall_eq', outcome_of_polls d hpoll]
      rw [hpoll, due_eq, Bool.true_and] at htimer
      by_cases hf : w.finished d = true
      · -- Whatever was pending is reported now, and the later polls find nothing.
        have hpend : ((w.step op).2.timer d).pending = false := by
          rw [htimer, hf]
          cases hp : (w.timer d).pending <;> simp [hp, Timer.consumed]
        have hlater := outcome_after_report d hops.2 hsteady.2 (hfin hf) hpend
        obtain ⟨-, hchain, hpairs⟩ := ih hops.2 hsteady.2 (.inr (hfin hf))
        refine ⟨fun hp => by rw [hp, Bool.or_true], ⟨fun b hb => ?_, hchain⟩,
          fun b hb _ => hlater b hb, hpairs⟩
        rw [hlater b (List.mem_of_mem_head? hb), hf]
        rfl
      · have hp := hw.resolve_right hf
        rw [Bool.not_eq_true] at hf
        have hpend : ((w.step op).2.timer d).pending = true := by
          rw [htimer, hf]
          exact hp
        obtain ⟨hfirst, hchain, hpairs⟩ := ih hops.2 hsteady.2 (.inl hpend)
        refine ⟨fun _ => by rw [hf]; rfl, ⟨fun b hb => ?_, hchain⟩, fun b _ ha => ?_, hpairs⟩
        · rw [hfirst hpend b hb, hf]
          rfl
        · rw [hf] at ha
          cases ha
    · rw [Bool.eq_false_iff.mpr hpoll, Bool.false_and, if_neg Bool.false_ne_true] at htimer
      rw [if_neg hpoll, ← htimer]
      apply ih hops.2 hsteady.2
      rw [htimer]
      exact hw.imp_right hfin

/-- A duration that is new reports each start once at most: the first call that asks once the length
has passed is answered `true`, and without another start none after it. -/
theorem reported_exactly_once (w : World κ) (d : Ref Duration) (hnew : w.timer d = {}) :
    (∀ ops : List Op, (∀ op ∈ ops, op.isTiming = true) → .onDuration d .start ∉ ops →
      (w.calls ops).countP (·.reports d) = 0) ∧
    (∀ front stretch : List Op, (∀ op ∈ stretch, op.isTiming = true) →
      .onDuration d .start ∉ stretch →
      ((w.after front).calls stretch).countP (·.reports d) ≤ 1) ∧
    (∀ front stretch : List Op, (∀ op ∈ stretch, op.isTiming = true) →
      let v := w.after (front ++ [.onDuration d .start])
      (∀ c ∈ v.calls stretch, c.asks d = true → c.before.finished d = false) →
      (v.after stretch).finished d = true →
      ((v.after stretch).step (.onDuration d .poll)).1 = .ok (.flag true) ∧
        ((v.after stretch).step (.onDuration d .consume)).1 = .ok (.flag true)) ∧
    (∀ front stretch : List Op, (∀ op ∈ stretch, op.watches d = true) →
      let v := w.after (front ++ [.onDuration d .start])
      (∀ c ∈ v.calls stretch, c.Steady d) →
      let polls := (v.calls stretch).filter (·.op.polls d)
      (∀ c ∈ polls.head?, c.outcome = .ok (.flag true)) ∧
        polls.IsChain (fun a b => b.outcome = .ok (.flag !a.before.finished d)) ∧
        polls.Pairwise fun a b => a.before.finished d = true → b.outcome = .ok (.flag false)) := by
  -- After a start a completion is pending, whatever came before.
  have hstart : ∀ front, ((w.after (front ++ [.onDuration d .start])).timer d).pending = true := by
    intro front
    rw [after_concat, timer_onDuration]
    rfl
  refine ⟨?_, ?_, ?_, ?_⟩
  · intro ops hops hs
    have hcount := countP_reports_le d hops hs (w := w)
    rw [hnew] at hcount
    exact (Nat.add_eq_zero_iff.mp (Nat.le_zero.mp hcount)).2
  · intro front stretch hops hs
    have hcount := countP_reports_le d hops hs (w := w.after front)
    have := Bool.toNat_le ((w.after front).timer d).pending
    omega
  · intro front stretch hops v hask hf
    have hp := pending_of_unasked d hops hask (hstart front)
    rw [outcome_poll, outcome_consume, hf, hp]
    exact ⟨rfl, rfl⟩
  · intro front stretch hops v hsteady polls
    obtain ⟨hfirst, hrun⟩ := polls_answer d hops hsteady (.inl (hstart front))
    exact ⟨hfirst (hstart front), hrun⟩

/-- With a length of 100 ms, 30 ms onward, a poll, and 30 ms back complete the duration. -/
theorem reported_exactly_once_turned_back :
    let v := (solo 100).after ([] ++ [.onDuration ⟨0⟩ .start])
    let back := v.after [.onClock ⟨0⟩ (.advance 30), .onDuration ⟨0⟩ .poll,
      .onDuration ⟨0⟩ .reverse, .onClock ⟨0⟩ (.advance 30)]
    (solo 100).timer ⟨0⟩ = {} ∧ (back.step (.onDuration ⟨0⟩ .poll)).1 = .ok (.flag true) ∧
      (back.step (.onDuration ⟨0⟩ .consume)).1 = .ok (.flag true) :=
  ⟨by decide, (reported_exactly_once (solo 100) ⟨0⟩ (by decide)).2.2.1 [] _ (by decide)
    (by decide) (by decide)⟩

end World

end Tween
