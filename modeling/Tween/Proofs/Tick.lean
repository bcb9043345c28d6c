import Tween.Proofs.Settling

namespace Tween

variable {κ : Type}

namespace World

/-- The order in which a tick writes: durations by their first binding, bindings as listed. -/
def tickOrder (w : World κ) (s : Ref System) : List (Ref Binding) :=
  byFirst w.durationOf (w.listed s)

theorem perm_tickOrder (w : World κ) (s : Ref System) : (w.tickOrder s).Perm (w.listed s) :=
  perm_byFirst _ _

theorem step_onSystem_tick (w : World κ) (s : Ref System) :
    w.step (.onSystem s .tick) =
      (((Act.tick s).perform w).1.map fun _ => .done, ((Act.tick s).perform w).2) :=
  Act.perform_bind_pure (Act.tick s) (fun _ => Reply.done) w

theorem flatMap_listedOf_eraseDups (w : World κ) (s : Ref System) :
    ((w.listed s).map w.durationOf).eraseDups.flatMap (w.listedOf s) = w.tickOrder s :=
  flatMap_classes w.durationOf (w.listed s)

theorem visited_and_due_iff (w : World κ) (s : Ref System) (d : Ref Duration) :
    d ∈ ((w.listed s).map w.durationOf).eraseDups ∧ w.due d = true ↔
      (∃ b ∈ w.listed s, w.durationOf b = d) ∧ w.phase d = .completed :=
  and_congr (by rw [List.mem_eraseDups, List.mem_map]) decide_eq_true_iff

theorem listedOf_ne_nil (w : World κ) (s : Ref System) :
    ∀ d ∈ ((w.listed s).map w.durationOf).eraseDups, w.listedOf s d ≠ [] := by
  intro d hd
  obtain ⟨b, hb, rfl⟩ := List.mem_map.mp (List.mem_eraseDups.mp hd)
  exact List.ne_nil_of_mem (List.mem_filter.mpr ⟨hb, decide_eq_true rfl⟩)

/-- The world `w'` is `w` after a tick of a quiet system, when the progress of durations is `p`. -/
structure Ticked (w w' : World κ) (s : Ref System) (p : Ref Duration → Float) : Prop where
  emits : w.Emits w' ((w.tickOrder s).map fun b => w.stroke b (p (w.durationOf b)))
    ((w.systems.get s).policy.kept
      ((w.tickOrder s).filter fun b => w.phase (w.durationOf b) = .completed))
  durations (d : Ref Duration) :
    w'.durations.get d =
      if (∃ b ∈ w.listed s, w.durationOf b = d) ∧ w.phase d = .completed then
        { w.durations.get d with timer := (w.timer d).consumed }
      else w.durations.get d
  relisted :
    w.Relisted w' s ((w.listed s).filter fun b => w.phase (w.durationOf b) = .running)

theorem filter_settled (w : World κ) (s : Ref System) :
    (w.listed s).filter (fun b => !(decide (w.durationOf b ∈
        ((w.listed s).map w.durationOf).eraseDups) && w.finished (w.durationOf b))) =
      (w.listed s).filter fun b => w.phase (w.durationOf b) = .running := by
  apply List.filter_congr
  intro b hb
  have hmem : w.durationOf b ∈ ((w.listed s).map w.durationOf).eraseDups :=
    List.mem_eraseDups.mpr (List.mem_map_of_mem hb)
  rw [decide_eq_true hmem, Bool.true_and, Bool.eq_iff_iff, decide_eq_true_iff,
    Bool.not_eq_true', phase_eq_running_iff]

theorem Settled.ticked {w w' : World κ} {s : Ref System} {p : Ref Duration → Float}
    (h : w.Settled w' s (w.systems.get s).policy p ((w.listed s).map w.durationOf).eraseDups) :
    w.Ticked w' s p where
  emits := by
    have := h.emits
    rwa [flatMap_listedOf_eraseDups] at this
  durations d := by
    rw [h.durations]
    exact if_congr (visited_and_due_iff w s d) rfl rfl
  relisted := by
    have := h.relisted
    rwa [filter_settled] at this

namespace Ticked

variable {w w' : World κ} {s : Ref System} {p : Ref Duration → Float}

theorem sameTiming (h : w.Ticked w' s p) (d : Ref Duration) : w.SameTiming w' d :=
  .of_consumed (h.durations d)

theorem timer (h : w.Ticked w' s p) (d : Ref Duration) :
    w'.timer d =
      if (∃ b ∈ w.listed s, w.durationOf b = d) ∧ w.phase d = .completed then (w.timer d).consumed
      else w.timer d := by
  rw [World.timer, h.durations]
  split <;> rfl

theorem phase (h : w.Ticked w' s p) {b : Ref Binding} (hb : b ∈ w.listed s)
    (hd : w.phase (w.durationOf b) = .completed) : w'.phase (w.durationOf b) = .idle := by
  apply (Timer.phase_eq_idle_iff _ _ _).mpr
  constructor
  · have hfinished : w.finished (w.durationOf b) = true :=
      ((Timer.phase_eq_completed_iff _ _ _).mp hd).1
    exact (h.emits.timing (h.sameTiming _)).2.trans hfinished
  · rw [h.timer, if_pos ⟨⟨b, hb, rfl⟩, hd⟩]
    rfl

end Ticked

end World

namespace Act

variable {s : Ref System} (w : World κ)

theorem ticked_tick {p : Ref Duration → Float} (hq : (w.systems.get s).policy.isQuiet = true)
    (hp : ∀ b ∈ w.listed s, w.progress (w.durationOf b) = .ok (p (w.durationOf b))) :
    ∃ w', (tick s).perform w = (.ok (), w') ∧ w.Ticked w' s p := by
  obtain ⟨w', htick, hsettled⟩ := settled_forM_settle w hq (s := s)
    (nodup_eraseDups ((w.listed s).map w.durationOf)) (w.listedOf_ne_nil s) fun d _ b hb =>
      hp b (List.mem_filter.mp hb).1
  exact ⟨w', htick, hsettled.ticked⟩

theorem progress_of_tick (hq : (w.systems.get s).policy.isQuiet = true)
    (h : ((tick s).perform w).1 = .ok ()) :
    ∀ b ∈ w.listed s, (w.progress (w.durationOf b)).isOk = true := by
  intro b hb
  apply progress_of_forM_settle w hq (nodup_eraseDups ((w.listed s).map w.durationOf)) h
  · exact List.mem_eraseDups.mpr (List.mem_map_of_mem hb)
  · exact List.mem_filter.mpr ⟨hb, decide_eq_true rfl⟩

end Act

namespace World

/-- A tick of a quiet system that succeeds has found no progress that is a fault. -/
theorem ticked_of_isOk (w : World κ) (s : Ref System) (hq : (w.systems.get s).policy.isQuiet = true)
    (h : (w.step (.onSystem s .tick)).1.isOk = true) :
    (∀ b ∈ w.listed s, w.progress (w.durationOf b) = .ok (w.reading (w.durationOf b))) ∧
      w.Ticked (w.step (.onSystem s .tick)).2 s w.reading := by
  rw [step_onSystem_tick] at h ⊢
  have htick : ((Act.tick s).perform w).1 = .ok () := by
    cases hr : ((Act.tick s).perform w).1 with
    | error fault =>
      rw [hr] at h
      cases h
    | ok => rfl
  have hp : ∀ b ∈ w.listed s, w.progress (w.durationOf b) = .ok (w.reading (w.durationOf b)) :=
    fun b hb => progress_eq_reading (Act.progress_of_tick w hq htick b hb)
  obtain ⟨w', hrun, hticked⟩ := Act.ticked_tick w hq hp
  rw [hrun]
  exact ⟨hp, hticked⟩

end World

end Tween
