import Tween.Proofs.Handling
import Tween.Proofs.Keeping
import Tween.Proofs.Opening

namespace Tween

namespace World

open Gallery Act

variable {w w' : World Hall} {lane : Lane}

def visits (w : World Hall) : List (Ref Duration) :=
  visited w.client.system complete w (w.groups w.members)

/-- Whether a move consumes the completion of a lane: a tick does when it gets to the group of the lane
while the completion is pending and the length has passed. -/
def consumes (w : World Hall) (lane : Lane) : Move → Bool
  | .tick ms =>
    let moved := (advanceClock ms).perform w
    let v := moved.2
    moved.1.isOk && (v.visits.contains lane.duration && (v.timer lane.duration).pending &&
      (v.elapsed lane.duration).any (v.length lane.duration ≤ ·))
  | _ => false

/-- Whether a completion that a move consumes is counted, which it is not after a foreign binding of
the same duration. -/
def counts (w : World Hall) (lane : Lane) (m : Move) : Bool :=
  w.consumes lane m && w.leads lane

theorem handled_tick (h : w.Tidy) :
    ∃ r w', Gallery.tick.perform w = (r, w') ∧
      w.Handled w' (w.visits.filter fun q => (w.progress q).isOk) ∧
      (r.isOk = true → w.visits = w.followed.eraseDups ∧ ∀ d ∈ w.followed,
        (w.progress d).isOk = true ∧ (w.due d = true →
          ∀ b ∈ w.listedOf w.client.system d, w.isForeign b = false)) ∧
      ∀ fault, r = .error fault → w.Blames fault := by
  obtain ⟨r, w', hperform, hhandled, hok, herror⟩ := handled_forM_settle h rfl
    (nodup_eraseDups w.followed) fun d hd => List.mem_eraseDups.mp hd
  refine ⟨r, w', ?_, hhandled, fun hr => ⟨(hok hr).1, fun d hd => ?_⟩, herror⟩
  · rw [Gallery.tick, perform_get_bind, tickWith, perform_get_bind]
    exact hperform
  · exact (hok hr).2 d (List.mem_eraseDups.mpr hd)

/-- The completion of a lane that is due is handled where its group is got to. -/
theorem Tidy.mem_visits_and_due (h : w.Tidy) (hlane : lane ∈ w.client.lanes) :
    (decide (lane.duration ∈ w.visits.filter fun q => (w.progress q).isOk) &&
        w.due lane.duration) =
      (w.visits.contains lane.duration && (w.timer lane.duration).pending &&
        (w.elapsed lane.duration).any (w.length lane.duration ≤ ·)) := by
  generalize hd : lane.duration = d
  have hstarted := h.started lane hlane
  have hcurve := h.isCurve_easing hlane
  rw [hd] at hstarted hcurve
  have hfinished : (w.timer d).pending = true →
      w.finished d = (w.elapsed d).any (w.length d ≤ ·) := by
    intro hp
    obtain ⟨start, hstart⟩ := Option.isSome_iff_exists.mp (hstarted hp)
    simp [finished, Timer.finished, elapsed, Timer.elapsed, hstart]
  cases hp : (w.timer d).pending with
  | false => rw [due_eq, hp, Bool.and_false, Bool.and_false, Bool.and_false, Bool.false_and]
  | true =>
    rw [due_eq, hp, ← hfinished hp, Bool.and_true, Bool.and_true]
    cases hf : w.finished d with
    | false => rw [Bool.and_false, Bool.and_false]
    | true =>
      have hok := isOk_progress_of_finished hcurve hf
      rw [Bool.and_true, Bool.and_true, List.contains_eq_mem, decide_eq_decide, List.mem_filter]
      exact and_iff_left hok

/-- The binding of a lane is the first of its duration if no foreign binding goes with that. -/
theorem Tidy.leads (h : w.Tidy) (hlane : lane ∈ w.client.lanes) (hbound : w.bound lane = true)
    (hhome : ∀ b ∈ w.listedOf w.client.system lane.duration, w.isForeign b = false) :
    w.leads lane = true := by
  obtain ⟨b, hb, hfollows⟩ := bound_iff.mp hbound
  have hmem := mem_listedOf.mpr ⟨hb, h.wired.durationOf_of_follows hlane hfollows⟩
  rw [leads_eq]
  cases hlist : w.listedOf w.client.system lane.duration with
  | nil =>
    rw [hlist] at hmem
    cases hmem
  | cons c rest =>
    have hc : c ∈ w.listedOf w.client.system lane.duration := hlist ▸ List.mem_cons_self
    exact h.wired.follows_of_home hlane (mem_listedOf.mp hc).2 (hhome c hc)

theorem Undisturbed.leads (hu : w.Undisturbed lane) (h : w.Tidy) (hlane : lane ∈ w.client.lanes)
    (hpending : (w.timer lane.duration).pending = true) : w.leads lane = true := by
  refine h.leads hlane (h.bound lane hlane hpending) fun b hb => ?_
  obtain ⟨hb, hduration⟩ := mem_listedOf.mp hb
  exact isForeign_eq_false_iff.mpr ⟨lane, hlane, hu.follows h.listing hb hduration⟩

end World

namespace Gallery

open World Act

variable {w w' : World Hall} {m : Move}

/-- What a move does to the books: it consumes and counts completions as it should, and makes one
pending only by a launch. -/
structure Accounted (m : Move) (w w' : World Hall) : Prop where
  tidy : w'.Tidy
  lanes : w'.client.lanes = w.client.lanes.map fun lane => lane.counting (w.counts lane m)
  due : ∀ lane ∈ w.client.lanes, w.consumes lane m = true → (w.timer lane.duration).pending = true
  pending : ∀ lane ∈ w.client.lanes, (w'.timer lane.duration).pending =
      ((w.timer lane.duration).pending && !w.consumes lane m) ∨
    m.isLaunch = true ∧ (w'.timer lane.duration).pending = true
  undisturbed : ∀ lane ∈ w.client.lanes, m.disturbs lane.duration = false →
    w.Undisturbed lane → w'.Undisturbed lane
  home : m.isForeign = false → (∀ b ∈ w.members, w.isForeign b = false) →
    ∀ b ∈ w'.members, w'.isForeign b = false

theorem Kept.accounted (h : Kept m w w') (hnone : ∀ lane, w.consumes lane m = false) :
    Accounted m w w' where
  tidy := h.tidy
  lanes := by
    rw [h.lanes]
    refine (map_counting_eq_self fun lane _ => ?_).symm
    rw [counts, hnone, Bool.false_and]
  due lane _ hlane := by
    rw [hnone] at hlane
    cases hlane
  pending lane hlane := by
    rw [hnone, Bool.not_false, Bool.and_true]
    exact h.pending lane hlane
  undisturbed := h.undisturbed
  home := h.home

theorem leads_advanceClock (w : World Hall) (ms : Int) (lane : Lane) :
    ((advanceClock ms).perform w).2.leads lane = w.leads lane := by
  rw [frame_advanceClock]
  rfl

theorem Kept.reply {m : Move} {α β : Type} {act : Act Hall α} {f : α → β}
    (h : Kept m w (act.perform w).2) : Kept m w ((act >>= fun a => pure (f a)).perform w).2 := by
  rw [perform_bind_pure]
  exact h

theorem Kept.onLane {m : Move} (h : w.Tidy) (i : Nat) {f : Lane → Act Hall Reply}
    (hf : ∀ lane ∈ w.client.lanes, Kept m w ((f lane).perform w).2) :
    Kept m w ((Gallery.onLane i f).perform w).2 := by
  rw [Gallery.onLane, perform_get_bind]
  split
  · next lane hlane => exact hf lane (List.mem_of_getElem? hlane)
  · exact .refl h

theorem accounted_tick (h : w.Tidy) (ms : Int) :
    Accounted (.tick ms) w (move w (.tick ms)).2 := by
  have hkept := Kept.advanceClock (m := .tick ms) h ms
  have hleads := leads_advanceClock w ms
  change Accounted _ w ((advanceClock ms >>= fun _ => tick >>= fun _ => pure Reply.done).perform w).2
  rw [perform_bind]
  -- Only a clock that refuses its step keeps an update from handling durations.
  rcases hclock : (advanceClock ms).perform w with ⟨fault | _, v⟩ <;> rw [hclock] at hkept hleads
  · refine hkept.accounted fun lane => ?_
    rw [consumes, hclock]
    rfl
  · obtain ⟨r, w', htick, hhandled, -⟩ := handled_tick hkept.tidy
    have hconsumes : ∀ lane ∈ w.client.lanes, w.consumes lane (.tick ms) =
        (decide (lane.duration ∈ v.visits.filter fun q => (v.progress q).isOk) &&
          v.due lane.duration) := by
      intro lane hlane
      rw [hkept.tidy.mem_visits_and_due (hkept.lanes ▸ hlane), consumes, hclock]
      rfl
    dsimp only
    rw [perform_bind_pure, htick]
    have hpending : ∀ lane ∈ w.client.lanes,
        (v.timer lane.duration).pending = (w.timer lane.duration).pending := fun lane hlane =>
      (hkept.pending lane hlane).resolve_right (by rintro ⟨⟨⟩, -⟩)
    refine ⟨hhandled.tidy hkept.tidy, ?_, fun lane hlane hdue => ?_, fun lane hlane => .inl ?_,
      fun lane hlane hd hu => ?_, fun hm hh b hb => ?_⟩
    · dsimp only
      rw [hhandled.client, counted, hkept.lanes]
      refine List.map_congr_left fun lane hlane => ?_
      rw [counts, hconsumes lane hlane, ← hleads]
    · rw [hconsumes lane hlane, due_eq, Bool.and_eq_true, Bool.and_eq_true] at hdue
      rw [← hpending lane hlane]
      exact hdue.2.2
    · dsimp only
      rw [hhandled.timer, hconsumes lane hlane, ← hpending lane hlane]
      split
      · next hdue => simp [hdue.1, hdue.2, Timer.consumed]
      · next hdue =>
        rw [← decide_eq_true_iff (p := _ ∈ _), ← Bool.and_eq_true, Bool.not_eq_true] at hdue
        rw [hdue, Bool.not_false, Bool.and_true]
    · exact hhandled.undisturbed hkept.tidy (hkept.lanes ▸ hlane) (hkept.undisturbed lane hlane hd hu)
    · rw [hhandled.isForeign]
      exact hkept.home hm hh b (hhandled.subset b hb)

theorem accounted_move (h : w.Tidy) (m : Move) : Accounted m w (move w m).2 := by
  cases m with
  | tick ms => exact accounted_tick h ms
  | launch => exact (Kept.launch h).reply.accounted fun _ => rfl
  | reverse => exact (Kept.reverseAll h).reply.accounted fun _ => rfl
  | setLength length => exact (Kept.setLength h length).reply.accounted fun _ => rfl
  | reverseLane i =>
    exact (Kept.onLane h i fun lane _ => (Kept.reverse h lane.duration).reply).accounted fun _ => rfl
  | configureLane i text =>
    exact (Kept.onLane h i fun lane _ => (Kept.configureLane h lane text).reply).accounted
      fun _ => rfl
  | bindForeign foreign => exact (Kept.bindForeign h foreign).reply.accounted fun _ => rfl
  | advance ms => exact (Kept.advanceClock h ms).reply.accounted fun _ => rfl
  | reset now => exact (Kept.setClock h now).reply.accounted fun _ => rfl

structure Books (past : List Move) (w : World Hall) : Prop where
  tidy : w.Tidy
  balanced : ∀ lane ∈ w.client.lanes,
    lane.completed + (w.timer lane.duration).pending.toNat ≤ past.countP Move.isLaunch
  undisturbed : ∀ lane ∈ w.client.lanes,
    (∀ m ∈ past, m.disturbs lane.duration = false) → w.Undisturbed lane
  home : (∀ m ∈ past, m.isForeign = false) → ∀ b ∈ w.members, w.isForeign b = false

/-- A completion is counted only once it is consumed, so what is counted and pending grows by no more
than the launches. -/
theorem Books.move {past : List Move} (h : Books past w) (m : Move) :
    Books (past ++ [m]) (move w m).2 := by
  have hmove := accounted_move h.tidy m
  refine ⟨hmove.tidy, ?_, ?_, fun hp => ?_⟩
  · rw [hmove.lanes, List.forall_mem_map]
    intro lane hlane
    have hbound := h.balanced lane hlane
    have hdue := hmove.due lane hlane
    change lane.completed + (w.consumes lane m && w.leads lane).toNat +
      ((Gallery.move w m).2.timer lane.duration).pending.toNat ≤ _
    rw [List.countP_append, List.countP_singleton]
    rcases hmove.pending lane hlane with hpending | ⟨hlaunch, hpending⟩
    · rw [hpending]
      cases hconsumes : w.consumes lane m with
      | false =>
        rw [Bool.not_false, Bool.and_true]
        exact hbound.trans (Nat.le_add_right _ _)
      | true =>
        rw [hdue hconsumes] at hbound ⊢
        have hleads := Bool.toNat_le (w.leads lane)
        simp only [Bool.true_and, Bool.not_true, Bool.and_false, Bool.toNat_false,
          Bool.toNat_true] at hbound ⊢
        omega
    · have hnone : w.consumes lane m = false := by
        cases m <;> first | rfl | cases hlaunch
      rw [hpending, hlaunch, hnone, if_pos rfl]
      exact Nat.add_le_add_right ((Nat.le_add_right _ _).trans hbound) 1
  · rw [hmove.lanes, List.forall_mem_map]
    intro lane hlane hp
    rw [List.forall_mem_append, List.forall_mem_singleton] at hp
    have hlone := hmove.undisturbed lane hlane hp.2 (h.undisturbed lane hlane hp.1)
    exact ⟨hlone.alone, hlone.pending⟩
  · rw [List.forall_mem_append, List.forall_mem_singleton] at hp
    exact hmove.home hp.2 (h.home hp.1)

end Gallery

end Tween
