import Tween.Proofs.Twins
import Tween.Proofs.UnitInterval

namespace Tween

variable {κ : Type}

namespace Number

open Float.Model.UnpackedFloat (Sign)

theorem Denotes.abs_snap_sub_le {y : Float} {b : ℚ} (h : Denotes y b) (q : ℚ) :
    |snap q - q| ≤ |b - q| := by
  have hpos : ∀ {y b q}, Denotes y b → 0 < q → |snap q - q| ≤ |b - q| := by
    rintro y b q ⟨hy, rfl⟩ hq
    rw [snap, if_neg (not_lt.mpr hq.le)]
    exact abs_magnitude_rounding_sub_le .positive hq hy
  rcases lt_trichotomy q 0 with hq | rfl | hq
  · have hneg := hpos h.neg (neg_pos.mpr hq)
    rwa [snap_neg, neg_sub_neg, neg_sub_neg, abs_sub_comm, abs_sub_comm q] at hneg
  · rw [snap_zero, sub_self, abs_zero]
    exact abs_nonneg _
  · exact hpos h hq

/-- Rounding moves a number that is not too small by less than the result. -/
theorem abs_snap_sub_lt {q : ℚ} (h : 2 ^ (-1074 : ℤ) ≤ |q|) : |snap q - q| < |snap q| := by
  have hpos : ∀ {q : ℚ}, 2 ^ (-1074 : ℤ) ≤ q → |snap q - q| < |snap q| := by
    intro q hq
    have hpos : 0 < q := (zpow_pos two_pos _).trans_le hq
    have hexp : -1074 ≤ Int.log 2 q := (Int.zpow_le_iff_le_log one_lt_two hpos).mp hq
    have hlow : 2 ^ Int.log 2 q ≤ q := by exact_mod_cast Int.zpow_log_le_self one_lt_two hpos
    have hhigh : q < 2 ^ (Int.log 2 q + 1) := by
      exact_mod_cast Int.lt_zpow_succ_log_self one_lt_two q
    generalize Int.log 2 q = k at hexp hlow hhigh
    have hpow : ∀ i : ℤ, -1074 ≤ i → snap (2 ^ i) = 2 ^ i := by
      intro i hi
      have h := snap_mul_zpow (n := 1) (by decide) hi
      rwa [Int.cast_one, one_mul] at h
    have hsnap := snap_mono hlow
    have hsnap' := snap_mono hhigh.le
    rw [hpow k hexp] at hsnap
    rw [hpow (k + 1) (by omega)] at hsnap'
    have hunit : (0 : ℚ) < 2 ^ k := zpow_pos two_pos k
    have hdouble : (2 : ℚ) ^ (k + 1) = 2 * 2 ^ k := by rw [zpow_add_one₀ two_ne_zero, mul_comm]
    rw [abs_of_pos (hunit.trans_le hsnap)]
    -- A power of two stays; between two of them the result is less than the lower one away.
    rcases hlow.eq_or_lt with heq | hlt
    · rw [← heq, hpow k hexp, sub_self, abs_zero]
      exact hunit
    · rw [abs_lt]
      constructor <;> linarith
  rcases le_abs.mp h with h | h
  · exact hpos h
  · have hneg := hpos h
    rwa [snap_neg, neg_sub_neg, abs_sub_comm, abs_neg] at hneg

namespace Denotes

variable {x y : Float} {a b : ℚ}

theorem exists_eq_mul (h : Denotes x a) : ∃ n : ℤ, a = n * 2 ^ (-1074 : ℤ) := by
  rcases h.parts_cases with ⟨-, rfl⟩ | ⟨s, m, e, -, -, hcan, -, rfl⟩
  · exact ⟨0, by rw [Int.cast_zero, zero_mul]⟩
  · have hleast := hcan.least
    refine ⟨s.apply m * 2 ^ (e + 1074).toNat, ?_⟩
    rw [Int.cast_mul, Int.cast_pow, Int.cast_ofNat, mul_assoc, ← zpow_natCast,
      ← zpow_add₀ two_ne_zero, Int.toNat_of_nonneg (by omega)]
    congr 2
    omega

/-- A number that the rounded difference to another one does not move is that other one. -/
theorem eq_of_snap_add_eq (hx : Denotes x a) (hy : Denotes y b)
    (h : snap (a + snap (b - a)) = a) : b = a := by
  by_contra hne
  obtain ⟨m, hm⟩ := hx.exists_eq_mul
  obtain ⟨n, hn⟩ := hy.exists_eq_mul
  have hdifference : 2 ^ (-1074 : ℤ) ≤ |b - a| := by
    have hcount : 1 ≤ |n - m| := Int.one_le_abs (sub_ne_zero.mpr fun heq => hne (by rw [hm, hn, heq]))
    have hcount' : (1 : ℚ) ≤ |(n : ℚ) - m| := by exact_mod_cast hcount
    have hunit : (0 : ℚ) < 2 ^ (-1074 : ℤ) := zpow_pos two_pos _
    rw [hm, hn, ← sub_mul, abs_mul, abs_of_pos hunit]
    exact le_mul_of_one_le_left hunit.le hcount'
  -- The other number is as close to the sum as the difference was rounded, the first one is not.
  have hless := abs_snap_sub_lt hdifference
  have hclosest := hy.abs_snap_sub_le (a + snap (b - a))
  rw [h, sub_add_cancel_left, abs_neg, sub_add_eq_sub_sub, abs_sub_comm (b - a)] at hclosest
  exact hless.not_ge hclosest

end Denotes

end Number

open Number

namespace Transition

variable {t : Transition}

theorem at_zero (hx : t.start.isFinite = true) (hd : (t.finish - t.start).isFinite = true) :
    (t.at 0.0 == t.start) = true := by
  have hstart : Denotes t.start (rational t.start) := ⟨hx, rfl⟩
  have hway : Denotes (t.finish - t.start) (rational (t.finish - t.start)) := ⟨hd, rfl⟩
  have hsum := hstart.add hway.zero_times
  rw [add_zero, hstart.snap_eq] at hsum
  exact ((hsum hstart.abs_lt_overflowBound).beq_iff hstart).mpr rfl

/-- At the end a transition is where it started from only if there is nowhere to go. -/
theorem at_one (hx : t.start.isFinite = true) (hy : t.finish.isFinite = true)
    (hd : (t.finish - t.start).isFinite = true) :
    (t.at 1.0 == t.start) = true ↔ (t.finish == t.start) = true := by
  have hstart : Denotes t.start (rational t.start) := ⟨hx, rfl⟩
  have hfinish : Denotes t.finish (rational t.finish) := ⟨hy, rfl⟩
  have hway := hfinish.sub_of_isFinite hstart hd
  rw [Transition.at, hway.one_times, hfinish.beq_iff hstart]
  constructor
  · intro h
    have hsum := hstart.add_of_isFinite hway (hstart.isFinite_of_beq h)
    exact hstart.eq_of_snap_add_eq hfinish ((hsum.beq_iff hstart).mp h)
  · intro h
    have hsum := hstart.add hway
    rw [h, sub_self, snap_zero, add_zero, hstart.snap_eq] at hsum
    exact ((hsum hstart.abs_lt_overflowBound).beq_iff hstart).mpr rfl

end Transition

namespace Timer

theorem quotient_zero {length : Int} (h : 0 < length) : quotient 0 length = .ok 0.0 :=
  quotient_of_lt le_rfl h

theorem fraction_start (t : Timer) (now : Int) {length : Int} (h : 0 < length) :
    (t.start now).fraction now length = .ok (if t.reversed then 1.0 else 0.0) := by
  have helapsed : (t.start now).elapsed now = some 0 := congrArg some (Int.sub_self now)
  rw [fraction, helapsed]
  dsimp only
  rw [if_neg (not_le.mpr h), fractionAt, quotient_zero h]
  change Except.ok (clampUnit (if t.reversed = true then 1.0 - 0.0 else 0.0)) = _
  cases t.reversed <;> rfl

end Timer

namespace World

variable {w w' : World κ} {d : Ref Duration} {a : Animation}

theorem Retimed.progress_start (h : w.Retimed w' d ((w.timer d).start (w.nowOf d)))
    (hlength : w.hasLength d = true) :
    w'.progress d = (w.easing d).eval (if (w.timer d).reversed then 1.0 else 0.0) := by
  have hpos : 0 < w.length d := w.one_le_length d
  have htimer : w'.timer d = (w.timer d).start (w.nowOf d) := by rw [h.timer, if_pos rfl]
  have hhas : w'.hasLength d = true := by
    rw [World.hasLength, h.source]
    exact hlength
  have hfinished : w'.finished d = false := by
    rw [World.finished, htimer, h.nowOf, h.length, Bool.eq_false_iff, Ne, Timer.finished_iff]
    intro hall
    have := hall _ rfl
    omega
  rw [World.progress, hfinished, h.easing, World.fraction, if_pos hhas, htimer, h.nowOf, h.length,
    Timer.fraction_start _ _ hpos]
  rfl

structure Joined (w : World κ) (a : Animation) : Prop where
  known : a.transition.index < w.transitions.next
  moved : (w.transitions.get a.transition).duration = a.duration

namespace Joined

theorem of_transitions (h : w.Joined a) (hw : w'.transitions = w.transitions) : w'.Joined a := by
  obtain ⟨hknown, hmoved⟩ := h
  exact ⟨hw ▸ hknown, hw ▸ hmoved⟩

theorem modify (h : w.Joined a) (r : Ref Transition) {f : Transition → Transition}
    (hf : ∀ t, (f t).duration = t.duration) :
    Joined { w with transitions := w.transitions.modify r f } a := by
  refine ⟨h.known, ?_⟩
  change ((w.transitions.set r (f (w.transitions.get r))).get a.transition).duration = _
  rw [Store.get_set]
  split
  next heq => rw [hf, heq, h.moved]
  next => exact h.moved

theorem addTransition (h : w.Joined a) (t : Transition) :
    Joined { w with transitions := (w.transitions.add t).2 } a :=
  ⟨Nat.lt_succ_of_lt h.known, by rw [← h.moved]; exact congrArg _ (Store.get_add_of_lt _ _ h.known)⟩

theorem step (h : w.Joined a) (op : Op) : (w.step op).2.Joined a := by
  have hlook : ∀ (v : World κ) count, v.Joined a → (v.noticed count).Joined a :=
    fun _ _ hv => hv.of_transitions rfl
  have hduration : ∀ spec, Act.Keeps (fun v : World κ => v.Joined a) (Act.newDuration spec) :=
    fun spec => (Act.Keeps.of_looks hlook (.query _)).bind fun _ _ hv => hv.of_transitions rfl
  have hclock : op.isClock = true → (w.step op).2.transitions = w.transitions := fun h => by
    rw [w.step_isClock h]
  have hsetting : op.isSetting = true → (w.step op).2.transitions = w.transitions := fun h => by
    rw [(w.step_isSetting h).frame]
  cases op with
  | newDescriptionOfText =>
    exact (Act.Keeps.of_looks hlook (.query _)).bind (fun _ _ hv => hv.of_transitions rfl) w h
  | newDuration spec => exact (hduration spec).reply _ w h
  | newAnimation spec =>
    refine Act.Keeps.reply (P := fun v => v.Joined a) ((hduration spec).bind fun q => ?_) _ w h
    exact .reply (fun v hv => hv.addTransition ⟨q, 0.0, 0.0⟩) _
  | newTransition q start finish => exact h.addTransition _
  | onClock r op => exact h.of_transitions (hclock rfl)
  | onLength r op | onDescription r op => exact h.of_transitions (hsetting rfl)
  | onDuration q op =>
    exact Act.Keeps.durationOp (fun _ _ _ hv => hv.of_transitions rfl) hlook w h
  | onTransition r op =>
    exact Act.Keeps.transitionOp op (fun _ _ hf hv => hv.modify r hf) hlook w h
  | animate b values =>
    exact (Act.Keeps.animate (fun _ _ hv => hv.of_transitions rfl)
      (fun _ _ hf hv => hv.modify b.transition hf) hlook values).reply _ w h
  | onSystem s op =>
    cases op with
    | add b => exact h.of_transitions rfl
    | tick =>
      change ((Act.tick s >>= fun _ => pure Reply.done : Act κ Reply).perform w).2.Joined a
      rw [Act.perform_bind_pure]
      refine h.of_transitions (Act.Keeps.tick (P := fun v : World κ =>
        v.transitions = w.transitions ∧ v.bindings = w.bindings) (fun _ _ hv => hv)
        (fun _ _ hv => hv) (fun _ _ hv => hv) (fun v hv => ?_) (fun _ _ _ _ hv => hv) ⟨rfl, rfl⟩).1
      funext b
      rw [durationOf, hv.1, hv.2, durationOf]
  | setMonotonic | newClock | newLength | newDescription | clone | newTarget | newBinding |
    newSystem => exact h.of_transitions rfl

theorem after (h : w.Joined a) (ops : List Op) : (w.after ops).Joined a :=
  w.after_of_forall_calls (P := fun v => v.Joined a) h fun c _ hc => step hc c.op

end Joined

end World

namespace Act

theorem perform_newAnimation (spec : DurationSpec) (w : World κ) :
    (newAnimation spec).perform w =
      match spec.make with
      | .error fault => (.error fault, w)
      | .ok x =>
        (.ok ⟨⟨w.durations.next⟩, ⟨w.transitions.next⟩⟩,
          { w with
            durations := (w.durations.add x).2
            transitions := (w.transitions.add ⟨⟨w.durations.next⟩, 0.0, 0.0⟩).2 }) := by
  rw [newAnimation, newDuration, perform_bind, perform_bind, perform_query]
  cases spec.make <;> rfl

/-- An animation that is sent on takes its current value for its start, and starts. -/
theorem perform_animate {w : World κ} {a : Animation} {values : List Float} {x : Float}
    (hvalues : values.length ≤ 1) (hx : w.value a.transition = .ok x) :
    ∃ count, (animate a values).perform w =
      (.ok (), World.withTimer { w.noticed count with
        transitions := w.transitions.modify a.transition fun t =>
          { t with start := x, finish := values.headD t.finish } } a.duration
        (·.start (w.nowOf a.duration))) := by
  obtain ⟨count, hcount⟩ := w.exists_looked_eq (w.transitions.get a.transition).duration
    (w.lookups (w.transitions.get a.transition).duration)
  have hread : (value a.transition).perform w = (.ok x, w.noticed count) := by
    rw [perform_value, hx, hcount]
  refine ⟨count, ?_⟩
  match values with
  | [] =>
    change ((value a.transition >>= fun start => changeTransition a.transition fun t =>
      { t with start }) >>= fun _ => start a.duration).perform w = _
    rw [perform_bind, perform_bind_ok _ hread]
    rfl
  | [finish] =>
    change ((value a.transition >>= fun start => setEnds a.transition start finish) >>= fun _ =>
      start a.duration).perform w = _
    rw [perform_bind, perform_bind_ok _ hread]
    rfl
  | _ :: _ :: _ => exact absurd hvalues (by simp)

end Act

namespace World

variable {w : World κ} {a : Animation}

theorem joined_newAnimation {spec : DurationSpec}
    (h : (w.step (.newAnimation spec)).1 = .ok (.made (.animation a))) :
    (w.step (.newAnimation spec)).2.Joined a := by
  have hstep : w.step (.newAnimation spec) =
      (Act.newAnimation spec >>= fun a => pure (.made (.animation a))).perform w := rfl
  rw [hstep, Act.perform_bind_pure, Act.perform_newAnimation] at h ⊢
  cases hmake : spec.make with
  | error =>
    rw [hmake] at h
    cases h
  | ok x =>
    rw [hmake] at h
    cases h
    exact ⟨Nat.lt_succ_self _, congrArg Transition.duration (Store.get_add_self _ _)⟩

/-- An animation that is sent on is at the end it comes from, between its last value and the new end. -/
theorem value_animate {values : List Float} {x : Float} (h : w.Joined a) (hvalues : values.length ≤ 1)
    (hlength : w.hasLength a.duration = true) (hlinear : w.easing a.duration = .named .linear)
    (hx : w.value a.transition = .ok x) :
    (w.step (.animate a values)).1 = .ok .done ∧
      (w.step (.animate a values)).2.value a.transition =
        .ok (Transition.at ⟨a.duration, x, values.headD (w.transitions.get a.transition).finish⟩
          (if (w.timer a.duration).reversed then 1.0 else 0.0)) := by
  obtain ⟨count, hperform⟩ := Act.perform_animate hvalues hx
  -- The world `u` has the new ends, and the duration is not started yet.
  generalize hu : ({ w.noticed count with
    transitions := w.transitions.modify a.transition fun t =>
      { t with start := x, finish := values.headD t.finish } } : World κ) = u at hperform
  have hget : u.transitions.get a.transition =
      ⟨a.duration, x, values.headD (w.transitions.get a.transition).finish⟩ := by
    rw [← hu, ← h.moved]
    exact Store.get_set_self _ _ _
  have hnow : w.nowOf a.duration = u.nowOf a.duration := by
    rw [← hu]
    rfl
  have htimer : w.timer a.duration = u.timer a.duration := by
    rw [← hu]
    rfl
  have hlength' : u.hasLength a.duration = true := by
    rw [← hu]
    exact hlength
  have hlinear' : u.easing a.duration = .named .linear := by
    rw [← hu]
    exact hlinear
  have hstep : w.step (.animate a values) =
      (.ok .done, u.withTimer a.duration (·.start (u.nowOf a.duration))) := by
    change (Act.animate a values >>= fun _ => pure Reply.done).perform w = _
    rw [Act.perform_bind_pure, hperform, hnow]
    rfl
  have hprogress :=
    ((Retimed.refl u a.duration).withTimer (·.start (u.nowOf a.duration))).progress_start hlength'
  rw [hlinear'] at hprogress
  rw [hstep, htimer]
  refine ⟨rfl, ?_⟩
  change (do
    let t := u.transitions.get a.transition
    return t.at (← (u.withTimer a.duration (·.start (u.nowOf a.duration))).progress t.duration)) = _
  rw [hget]
  dsimp only
  rw [hprogress]
  rfl

/-- An animation with linear easing that is sent on keeps its value if it runs forward; a reversed
one is at the far end of the way at once. -/
theorem animate_continues {spec : DurationSpec} {ops : List Op} {values : List Float} {x : Float}
    (hmade : (w.step (.newAnimation spec)).1 = .ok (.made (.animation a)))
    (hvalues : values.length ≤ 1) :
    let v := (w.step (.newAnimation spec)).2.after ops
    let finish := values.headD (v.transitions.get a.transition).finish
    v.hasLength a.duration = true → v.easing a.duration = .named .linear →
    v.value a.transition = .ok x → x.isFinite = true → finish.isFinite = true →
    (finish - x).isFinite = true →
    (v.step (.animate a values)).1 = .ok .done ∧
      ∃ y, (v.step (.animate a values)).2.value a.transition = .ok y ∧
        ((v.timer a.duration).reversed = false → (y == x) = true) ∧
        ((v.timer a.duration).reversed = true →
          y = x + (finish - x) ∧ ((y == x) = true ↔ (finish == x) = true)) := by
  intro v finish hlength hlinear hvalue hx hfinish hway
  have hjoined : v.Joined a := (joined_newAnimation hmade).after ops
  obtain ⟨hdone, hvalue'⟩ := value_animate hjoined hvalues hlength hlinear hvalue
  refine ⟨hdone, _, hvalue', fun hforward => ?_, fun hback => ?_⟩
  · rw [hforward]
    exact Transition.at_zero (t := ⟨a.duration, x, finish⟩) hx hway
  · rw [hback]
    have hdenotes : Denotes (finish - x) (rational (finish - x)) := ⟨hway, rfl⟩
    exact ⟨congrArg (x + ·) hdenotes.one_times,
      Transition.at_one (t := ⟨a.duration, x, finish⟩) hx hfinish hway⟩

def linearSpec : DurationSpec :=
  { length := some ⟨0⟩, smoothing := .named .linear, clock := .manual ⟨0⟩ }

/-- Four tenths on the way to ten, an animation is sent on to a hundred and is still at four. -/
theorem animate_continues_running :
    let w := World.empty.after [.newClock 0, .newLength (.whole "length" 100)]
    let a : Animation := ⟨⟨0⟩, ⟨0⟩⟩
    let v := (w.step (.newAnimation linearSpec)).2.after
      [.animate a [0.0, 10.0], .onClock ⟨0⟩ (.advance 40)]
    v.value a.transition = .ok 4.0 ∧
      ∃ y, (v.step (.animate a [100.0])).2.value a.transition = .ok y ∧ (y == 4.0) = true := by
  intro w a v
  have hmade : (w.step (.newAnimation linearSpec)).1 = .ok (.made (.animation a)) := rfl
  have hvalues : [100.0].length ≤ 1 := le_rfl
  have hvalue : v.value a.transition = .ok 4.0 := by decide +kernel
  obtain ⟨-, y, hy, hforward, -⟩ := animate_continues hmade hvalues rfl rfl hvalue (by decide)
    (by decide) (by decide)
  exact ⟨hvalue, y, hy, hforward rfl⟩

/-- Turned around at four, the animation jumps to a hundred. -/
theorem animate_jumps_reversed :
    let a : Animation := ⟨⟨0⟩, ⟨0⟩⟩
    let v := World.empty.after [.newClock 0, .newLength (.whole "length" 100), .newAnimation linearSpec,
      .animate a [0.0, 10.0], .onClock ⟨0⟩ (.advance 40), .onDuration ⟨0⟩ .reverse]
    v.value a.transition = .ok 4.0 ∧
      (v.step (.animate a [100.0])).2.value a.transition = .ok 100.0 ∧ (100.0 == 4.0) = false :=
  ⟨rfl, rfl, rfl⟩

end World

end Tween
