import Tween.Proofs.Launching
import Tween.Proofs.OnScreen
import Tween.Proofs.ShiftedGallery

namespace Tween

open Number

namespace Number

variable {x y : Float} {a b : ℚ}

def closeTo (x y : Float) : Bool :=
  (x - y).abs ≤ 2.0

theorem abs_sub_le_of_closeTo (hx : Denotes x a) (hy : Denotes y b) (hsize : |a - b| ≤ 2 ^ 52)
    (h : closeTo x y = true) : |a - b| ≤ 3 := by
  have hdistance := (hx.sub hy (lt_overflowBound_of_abs_le hsize)).abs
  have hrounded := (hdistance.le_iff denotes_two).mp (of_decide_eq_true h)
  have herror := abs_snap_sub_le_one hsize
  rw [abs_sub_comm] at herror
  have htriangle := abs_add_le (a - b - snap (a - b)) (snap (a - b))
  rw [sub_add_cancel] at htriangle
  linarith

end Number

open Gallery

def IsEnd (x : Float) : Prop :=
  x = leftEnd ∨ x = rightEnd

theorem IsEnd.onRail {x : Float} (h : IsEnd x) : OnRail x := by
  rcases h with rfl | rfl
  · exact onRail_leftEnd
  · exact onRail_rightEnd

theorem IsEnd.eq_of_abs_sub_lt {x y : Float} {a b : ℚ} (hx : IsEnd x) (hy : IsEnd y)
    (ha : Denotes x a) (hb : Denotes y b) (h : |a - b| < 400) : x = y := by
  obtain ⟨-, rfl⟩ := ha
  obtain ⟨-, rfl⟩ := hb
  rcases hx with rfl | rfl <;> rcases hy with rfl | rfl
  · rfl
  · rw [denotes_leftEnd.2, denotes_rightEnd.2] at h
    norm_num at h
  · rw [denotes_leftEnd.2, denotes_rightEnd.2] at h
    norm_num at h
  · rfl

theorem InReach.eq_rightEnd {x : Float} (hx : InReach x) (h : (x == rightEnd) = true) :
    x = rightEnd := by
  obtain ⟨a, ha, -⟩ := hx
  rw [ha.beq_iff denotes_rightEnd] at h
  subst h
  exact ha.eq_of_ne_zero denotes_rightEnd (by norm_num)

namespace Transition

variable {t : Transition} {e : Float}

/-- All the way from a place in reach leads to the other end, but for rounding. -/
theorem exists_at_one (hstart : InReach t.start) (hfinish : OnRail t.finish) :
    ∃ a f, Denotes (t.at 1.0) a ∧ Denotes t.finish f ∧ |a| ≤ 5000 ∧ |a - f| ≤ 2 := by
  obtain ⟨s, hs, hs₀, hs₁⟩ := hstart
  obtain ⟨f, hf, hf₀, hf₁⟩ := hfinish
  push_cast at hs₀ hs₁ hf₀ hf₁
  have hway : |f - s| ≤ 2 ^ 52 := abs_le.mpr ⟨by linarith, by linarith⟩
  have hdifference := hf.sub hs (lt_overflowBound_of_abs_le hway)
  have herror := abs_le.mp (abs_snap_sub_le_one hway)
  have hsum : |s + snap (f - s)| ≤ 2 ^ 52 := abs_le.mpr ⟨by linarith, by linarith⟩
  have hat := hs.add hdifference (lt_overflowBound_of_abs_le hsum)
  have herror' := abs_le.mp (abs_snap_sub_le_one hsum)
  refine ⟨_, f, ?_, hf, abs_le.mpr ⟨by linarith, by linarith⟩,
    abs_le.mpr ⟨by linarith, by linarith⟩⟩
  rw [Transition.at, hdifference.one_times]
  exact hat

/-- An orb that has come to the end which it was sent to is close to that end only. -/
theorem finish_eq_of_closeTo (hstart : InReach t.start) (hfinish : IsEnd t.finish) (he : IsEnd e)
    (h : closeTo (t.at 1.0) e = true) : t.finish = e := by
  obtain ⟨a, f, ha, hf, hsize, herror⟩ := exists_at_one hstart hfinish.onRail
  obtain ⟨b, hb, hb₀, hb₁⟩ := he.onRail
  push_cast at hb₀ hb₁
  have hrange := abs_le.mp hsize
  have hclose := abs_sub_le_of_closeTo ha hb (abs_le.mpr ⟨by linarith, by linarith⟩) h
  have htriangle := abs_sub_le f a b
  rw [abs_sub_comm f a] at htriangle
  exact hfinish.eq_of_abs_sub_lt he hf hb (by linarith)

end Transition

namespace Gallery

open World Act

/-- Whether an easing leads all the way to the end, and back: what was sent from the right end and
turned back comes to a place that is not close to the left one. -/
def leadsBack (e : Easing) : Bool :=
  match e.eval 0.0, e.eval 1.0 with
  | .ok q, .ok p => p = 1.0 && [leftEnd, rightEnd].all fun finish =>
      !closeTo (Transition.at ⟨⟨0⟩, rightEnd, finish⟩ q) leftEnd
  | _, _ => false

theorem leadsBack_of_opensLane {e : Easing} (h : opensLane e = true) : leadsBack e = true :=
  of_opensLane (P := fun e => leadsBack e = true) h (fun c => by cases c <;> decide +kernel)
    (by decide +kernel)

theorem eval_of_leadsBack {e : Easing} (h : leadsBack e = true) :
    e.eval 1.0 = .ok 1.0 ∧ ∃ q, e.eval 0.0 = .ok q ∧ ∀ t : Transition, t.start = rightEnd →
      IsEnd t.finish → closeTo (t.at q) leftEnd = false := by
  unfold leadsBack at h
  split at h
  · next q p hq hp =>
    rw [Bool.and_eq_true, decide_eq_true_iff, List.all_eq_true] at h
    obtain ⟨rfl, hall⟩ := h
    refine ⟨hp, q, hq, fun t hstart hfinish => ?_⟩
    have hmem : t.finish ∈ [leftEnd, rightEnd] := by
      rcases hfinish with h | h <;> simp [h]
    have := hall _ hmem
    rw [Bool.not_eq_true', ← hstart] at this
    exact this
  · cases h

/-- Whether a move is one of the gallery's own that leaves all lengths as they are. -/
def Move.keepsLength (manual : Bool) : Move → Bool
  | .setLength _ => false
  | m => m.isOwn manual

theorem Move.isOwn_of_keepsLength {manual : Bool} {m : Move} (h : m.keepsLength manual = true) :
    m.isOwn manual = true := by
  cases m <;> first | exact h | cases h

end Gallery

namespace World

open Gallery Act

variable {manual : Bool} {w w₁ w' : World Hall} {lane : Lane} {a : Animation}

def animations (w : World Hall) : List Animation :=
  w.client.lanes.map Lane.animation

/-- In `w'` each lane goes on with what it did in `w`: it is on the same way, nothing but coming to
the end of it settles its completion, and once there it stays as it is. -/
structure GoesOn (w w' : World Hall) : Prop where
  animations : w'.animations = w.animations
  transition : ∀ a ∈ w.animations, w'.transitions.get a.transition = w.transitions.get a.transition
  easing : ∀ a ∈ w.animations, w'.easing a.duration = w.easing a.duration
  arrival : ∀ a ∈ w.animations, (w'.timer a.duration).pending = false →
    (w.timer a.duration).pending = false ∨ w'.finished a.duration = true
  rest : ∀ a ∈ w.animations, w.finished a.duration = true → w'.finished a.duration = true ∧
    (w'.timer a.duration).reversed = (w.timer a.duration).reversed

namespace GoesOn

theorem refl (w : World Hall) : w.GoesOn w where
  animations := rfl
  transition _ _ := rfl
  easing _ _ := rfl
  arrival _ _ := .inl
  rest _ _ h := ⟨h, rfl⟩

theorem trans (h : w.GoesOn w₁) (h' : w₁.GoesOn w') : w.GoesOn w' := by
  have hmem : ∀ {a}, a ∈ w.animations → a ∈ w₁.animations := fun ha => h.animations.symm ▸ ha
  refine ⟨h'.animations.trans h.animations, fun a ha => ?_, fun a ha => ?_, fun a ha hdone => ?_,
    fun a ha hdone => ?_⟩
  · exact (h'.transition a (hmem ha)).trans (h.transition a ha)
  · exact (h'.easing a (hmem ha)).trans (h.easing a ha)
  · rcases h'.arrival a (hmem ha) hdone with hbefore | hnow
    · exact (h.arrival a ha hbefore).imp_right fun hfinished => (h'.rest a (hmem ha) hfinished).1
    · exact .inr hnow
  · obtain ⟨hfinished, hreversed⟩ := h.rest a ha hdone
    obtain ⟨hfinished', hreversed'⟩ := h'.rest a (hmem ha) hfinished
    exact ⟨hfinished', hreversed'.trans hreversed⟩

theorem advanceClock (h : w.Steady manual) {ms : Int} (hms : manual = true ∨ 0 ≤ ms) :
    w.GoesOn ((Gallery.advanceClock ms).perform w).2 := by
  obtain ⟨r, v, hrun, hframe, hnow, -⟩ := advanceClock_forward h.clock hms
  rw [hrun]
  dsimp only
  have hdurations : v.durations = w.durations := by rw [hframe]
  have htimer : v.timer = w.timer := by
    unfold World.timer
    rw [hdurations]
  refine ⟨?_, fun a _ => ?_, fun a _ => ?_, fun a _ hdone => ?_, fun a _ hdone => ⟨?_, ?_⟩⟩
  · rw [hframe]
    rfl
  · rw [hframe]
  · rw [hframe]
    rfl
  · rw [← htimer]
    exact .inl hdone
  · have hlength : v.length a.duration = w.length a.duration := by
      rw [hframe]
      rfl
    have hlater : w.nowOf a.duration ≤ v.nowOf a.duration := by
      rw [World.nowOf, World.nowOf, hdurations]
      exact hnow _
    -- More time has passed since the same start, and the length is the same.
    rw [World.finished, Timer.finished_iff] at hdone ⊢
    rw [htimer, hlength]
    intro start hstart
    have := hdone start hstart
    omega
  · rw [htimer]

theorem reverseAll (h : w.Steady manual) : w.GoesOn (Gallery.reverseAll.perform w).2 := by
  obtain ⟨w', hrun, -, hlanes, hturned⟩ := h.reverseAll
  let P (v : World Hall) : Prop := v.transitions = w.transitions ∧ v.easing = w.easing
  have hkeeps : Keeps P Gallery.reverseAll := by
    refine .get_bind fun u hu => Keeps.forM (P := P) (fun lane _ v hv => ?_) u hu
    obtain ⟨v', hrun, hretimed⟩ := retimed_reverseRunning v lane
    rw [hrun]
    refine ⟨by rw [hretimed.frame, hv.1], ?_⟩
    rw [← hv.2]
    exact funext hretimed.easing
  have hkept := hkeeps w ⟨rfl, rfl⟩
  rw [hrun] at hkept ⊢
  obtain ⟨htransitions, heasing⟩ := hkept
  refine ⟨congrArg (List.map Lane.animation) hlanes, fun a _ => by rw [htransitions],
    fun a _ => by rw [heasing], fun a ha hdone => ?_, fun a ha hdone => ?_⟩ <;>
    obtain ⟨lane, hlane, rfl⟩ := List.mem_map.mp ha
  · rcases hturned lane hlane with ⟨-, hsame⟩ | hspares
    · exact .inl (hsame ▸ hdone)
    · exact .inl (hspares.timer ▸ hdone)
  · rcases hturned lane hlane with ⟨hrunning, -⟩ | hspares
    · rw [phase_eq_running_iff] at hrunning
      rw [hrunning] at hdone
      cases hdone
    · rw [← phase_ne_running_iff] at hdone ⊢
      rw [hspares.timing.1, hspares.timer]
      exact ⟨hdone, rfl⟩

theorem handled (hh : w.Handled w' w.followed) : w.GoesOn w' := by
  refine ⟨?_, fun a _ => by rw [hh.transitions], fun a _ => hh.easing _, fun a ha hdone => ?_,
    fun a _ hdone => ⟨by rw [hh.finished, hdone], ?_⟩⟩
  · rw [World.animations, hh.client]
    exact List.map_map
  · rw [hh.timer] at hdone
    split at hdone
    · next hdue => exact .inr (by rw [hh.finished, finished_of_due hdue.2])
    · exact .inl hdone
  · rw [hh.timer]
    split <;> rfl

end GoesOn

end World

namespace Gallery

open World

variable {manual : Bool} {w : World Hall}

theorem goesOn_move (h : w.Steady manual) {m : Move} (hm : m.keepsLength manual = true)
    (hlaunch : m ≠ .launch) : w.GoesOn (move w m).2 := by
  cases m with
  | launch => exact absurd rfl hlaunch
  | reverse =>
    rw [move_of_make reverseAll rfl]
    exact .reverseAll h
  | advance ms =>
    rw [move_of_make (advanceClock ms) rfl]
    exact .advanceClock h (by simpa [Move.keepsLength, Move.isOwn] using hm)
  | tick ms =>
    have hms : manual = true ∨ 0 ≤ ms := by simpa [Move.keepsLength, Move.isOwn] using hm
    have hclock := GoesOn.advanceClock h hms
    rcases move_tick h hms with ⟨hmove, -⟩ | ⟨w', hmove, hhandled⟩
    · rw [hmove]
      exact hclock
    · rw [hmove]
      exact hclock.trans (.handled hhandled)
  | _ => cases hm

theorem goesOn_moves (h : w.Steady manual) {ms : List Move}
    (hms : ∀ m ∈ ms, m.keepsLength manual = true ∧ m ≠ .launch) :
    (moves w ms).Steady manual ∧ w.GoesOn (moves w ms) := by
  induction ms generalizing w with
  | nil => exact ⟨h, .refl w⟩
  | cons m rest ih =>
    rw [List.forall_mem_cons] at hms
    obtain ⟨hm, hlaunch⟩ := hms.1
    obtain ⟨hsteady, hrest⟩ := ih (steady_move h (Move.isOwn_of_keepsLength hm)) hms.2
    exact ⟨hsteady, (goesOn_move h hm hlaunch).trans hrest⟩

theorem drawable_move (h : w.Steady manual) (hdrawable : w.Drawable) {m : Move}
    (hm : m.keepsLength manual = true) : (move w m).2.Drawable := by
  cases m with
  | launch =>
    rw [move_of_make launch rfl]
    exact hdrawable.launch h
  | reverse =>
    rw [move_of_make reverseAll rfl]
    exact hdrawable.reverseAll
  | advance ms =>
    rw [move_of_make (advanceClock ms) rfl]
    exact hdrawable.advanceClock h (by simpa [Move.keepsLength, Move.isOwn] using hm)
  | tick ms =>
    have hms : manual = true ∨ 0 ≤ ms := by simpa [Move.keepsLength, Move.isOwn] using hm
    have hclock := hdrawable.advanceClock h hms
    rcases move_tick h hms with ⟨hmove, -⟩ | ⟨w', hmove, hhandled⟩
    · rw [hmove]
      exact hclock
    · rw [hmove]
      exact hclock.handled (h.advanceClock hms) hhandled
  | _ => cases hm

theorem outcome_launch (h : w.Steady manual) : (move w .launch).1 = .ok .done := by
  obtain ⟨w', hrun, -⟩ := h.launch
  rw [move_of_make launch rfl, hrun]
  rfl

theorem sent_of_steady (h : w.Steady manual) : w.Sent (move w .launch).2 w.client.lanes :=
  sent_launch h.tidy (by rw [outcome_launch h]; rfl)

theorem finish_launch (h : w.Steady manual) {lane : Lane} (ha : lane.animation ∈ w.animations) :
    ((move w .launch).2.transitions.get lane.transition).finish = w.farEnd lane := by
  -- The lane may have been counted since, so it is told by its animation.
  obtain ⟨same, hsame, heq⟩ := List.mem_map.mp ha
  have htransition : same.transition = lane.transition := congrArg Animation.transition heq
  have hfar : w.farEnd same = w.farEnd lane := by
    unfold farEnd destination
    rw [heq]
  obtain ⟨x, -, ht⟩ := (sent_of_steady h).transition same hsame
  rw [← htransition, ← hfar, ht]

end Gallery

namespace World

open Gallery Act

variable {manual : Bool} {w w' : World Hall} {lane : Lane}

/-- Whether an orb has been turned back to a place that is not the right end to the last digit. -/
def strayed (w : World Hall) (lane : Lane) : Bool :=
  (w.timer lane.duration).reversed && !((w.transitions.get lane.transition).start == rightEnd)

/-- The gallery with all orbs on their way to an end of the rail, or back, and reported only once
they are there. -/
structure Homing (manual : Bool) (w : World Hall) : Prop where
  landed : w.Landed manual
  drawable : w.Drawable
  arrived : ∀ a ∈ w.animations, (w.timer a.duration).pending = false →
    w.finished a.duration = true
  ends : ∀ a ∈ w.animations, IsEnd (w.transitions.get a.transition).finish
  easing : ∀ a ∈ w.animations, leadsBack (w.easing a.duration) = true

theorem isEnd_farEnd (w : World Hall) (lane : Lane) : IsEnd (w.farEnd lane) := by
  unfold farEnd
  split
  · exact .inl rfl
  · exact .inr rfl

namespace Homing

theorem not_adrift (h : w.Homing manual) (hlane : lane ∈ w.client.lanes) :
    w.adrift lane = false := by
  rw [adrift, Bool.and_eq_false_iff, decide_eq_false_iff_not, Bool.not_eq_false',
    phase_eq_running_iff]
  cases hpending : (w.timer lane.duration).pending with
  | true => exact .inr rfl
  | false =>
    have := h.arrived lane.animation (List.mem_map_of_mem hlane) hpending
    exact .inl (by rw [this]; exact Bool.noConfusion)

theorem goesOn (h : w.Homing manual) (hg : w.GoesOn w') (hlanded : w'.Landed manual)
    (hdrawable : w'.Drawable) : w'.Homing manual := by
  refine ⟨hlanded, hdrawable, ?_, ?_, ?_⟩ <;> rw [hg.animations] <;> intro a ha
  · intro hdone
    rcases hg.arrival a ha hdone with hbefore | hnow
    · exact (hg.rest a ha (h.arrived a ha hbefore)).1
    · exact hnow
  · rw [hg.transition a ha]
    exact h.ends a ha
  · rw [hg.easing a ha]
    exact h.easing a ha

theorem launch (h : w.Homing manual) : (move w .launch).2.Homing manual := by
  have hsteady := h.landed.steady
  have hlanded := landed_move h.landed (m := .launch) rfl fun hm => by cases hm
  have hdrawable := drawable_move hsteady h.drawable (m := .launch) rfl
  have hsent := sent_of_steady hsteady
  generalize (move w .launch).2 = v at hlanded hdrawable hsent ⊢
  have hanimations : v.animations = w.animations := by
    rw [hsent.frame]
    rfl
  refine ⟨hlanded, hdrawable, ?_, ?_, ?_⟩ <;> rw [hanimations] <;> intro a ha <;>
    obtain ⟨lane, hlane, rfl⟩ := List.mem_map.mp ha
  · intro hdone
    rw [hsent.timer hlane] at hdone
    cases hdone
  · obtain ⟨x, -, ht⟩ := hsent.transition lane hlane
    rw [ht]
    exact isEnd_farEnd w lane
  · have heasing : v.easing lane.duration = w.easing lane.duration := by
      have hdescriptions : v.descriptions = w.descriptions := by rw [hsent.frame]
      rw [World.easing, hsent.duration lane hlane, hdescriptions]
      rfl
    rw [heasing]
    exact h.easing _ ha

end Homing

end World

namespace Gallery

open World

variable {manual : Bool} {w : World Hall}

theorem homing_move (h : w.Homing manual) {m : Move} (hm : m.keepsLength manual = true) :
    (move w m).2.Homing manual := by
  by_cases hlaunch : m = .launch
  · subst hlaunch
    exact h.launch
  · have hlanded := landed_move h.landed (Move.isOwn_of_keepsLength hm) fun _ _ => h.not_adrift
    exact h.goesOn (goesOn_move h.landed.steady hm hlaunch) hlanded
      (drawable_move h.landed.steady h.drawable hm)

theorem homing_moves (h : w.Homing manual) {ms : List Move}
    (hms : ∀ m ∈ ms, m.keepsLength manual = true) : (moves w ms).Homing manual :=
  moves_keep (P := Homing manual) (fun m hm _ hv => homing_move hv (hms m hm)) h

theorem drawable_of_new (clock : Option Int) : (opened clock).Drawable := by
  apply drawable_opened
  cases clock with
  | none => decide +kernel
  | some start =>
    have hclient : (opened (some start)).client = (opened (some 0)).client := by
      have hshifted := (opened_shifted start 0).1
      rw [zero_add] at hshifted
      rw [hshifted]
      generalize opened (some 0) = v
      rfl
    rw [hclient]
    decide +kernel

theorem homing_opened (clock : Option Int) : (opened clock).Homing clock.isSome := by
  obtain ⟨v, lanes, c, heq, ⟨hv, hpoised⟩, -⟩ := exists_poised_opened clock
  refine ⟨landed_opened clock, drawable_of_new clock, fun a _ _ => ?_, fun a ha => ?_,
    fun a ha => ?_⟩
  · have htimer : (opened clock).timer a.duration = {} := by
      rw [heq]
      exact hv.timer _
    rw [finished, htimer, Timer.finished_iff]
    intro start hstart
    cases hstart
  · rw [heq] at ha ⊢
    obtain ⟨lane, hlane, rfl⟩ := List.mem_map.mp ha
    change IsEnd (v.transitions.get lane.transition).finish
    rw [(hpoised.left lane hlane).2]
    exact .inl rfl
  · rw [heq] at ha ⊢
    obtain ⟨lane, hlane, rfl⟩ := List.mem_map.mp ha
    have hsource : (v.durations.get lane.animation.duration).source = .description lane.setting :=
      hv.wired.source lane hlane
    simp only [World.easing, hsource]
    exact leadsBack_of_opensLane (hpoised.described lane.setting)

end Gallery

namespace World

open Gallery

variable {manual : Bool} {w w' : World Hall} {lane : Lane}

theorem GoesOn.farEnd (h : w.GoesOn w') (ha : lane.animation ∈ w.animations)
    (hdone : w.finished lane.duration = true) : w'.farEnd lane = w.farEnd lane := by
  have hreversed := (h.rest _ ha hdone).2
  rw [World.farEnd, destination, h.transition _ ha, hreversed, ← destination, ← World.farEnd]

/-- An orb at rest near an end is launched to the other one, unless it has strayed. -/
theorem Homing.farEnd_of_closeTo (h : w.Homing manual) (hlane : lane ∈ w.client.lanes)
    (hdone : w.finished lane.duration = true)
    (hx : w.value lane.transition = .ok (w.orbX lane)) :
    (closeTo (w.orbX lane) leftEnd = true → w.farEnd lane = rightEnd) ∧
    (closeTo (w.orbX lane) rightEnd = true →
      w.farEnd lane = if w.strayed lane then rightEnd else leftEnd) := by
  have ha : lane.animation ∈ w.animations := List.mem_map_of_mem hlane
  have hduration := h.landed.steady.tidy.wired.duration lane hlane
  have hstart := h.drawable.start lane hlane
  have hfinish := h.ends _ ha
  obtain ⟨hone, q, hzero, haway⟩ := eval_of_leadsBack (h.easing _ ha)
  rw [value, hduration, progress, if_pos hdone, Timer.endpoint] at hx
  rw [farEnd, destination, strayed]
  generalize w.orbX lane = x at hx ⊢
  generalize w.transitions.get lane.transition = t at hx hstart hfinish ⊢
  cases hreversed : (w.timer lane.duration).reversed with
  | false =>
    -- The orb is where it was sent to, and that end is its destination.
    rw [hreversed, if_neg Bool.false_ne_true, hone] at hx
    obtain rfl := Except.ok.inj hx
    rw [if_neg Bool.false_ne_true, Bool.false_and, if_neg Bool.false_ne_true]
    refine ⟨fun hclose => ?_, fun hclose => ?_⟩
    · rw [Transition.finish_eq_of_closeTo hstart hfinish (.inl rfl) hclose]
      exact if_neg (by decide +kernel)
    · rw [Transition.finish_eq_of_closeTo hstart hfinish (.inr rfl) hclose]
      exact if_pos (by decide +kernel)
  | true =>
    -- The orb is about where it was sent from, and its destination is that place to the last digit.
    rw [hreversed, if_pos rfl, hzero] at hx
    obtain rfl := Except.ok.inj hx
    rw [if_pos rfl, Bool.true_and]
    refine ⟨fun hclose => if_neg fun hright => ?_, fun _ => ?_⟩
    · rw [haway t (hstart.eq_rightEnd hright) hfinish] at hclose
      cases hclose
    · cases t.start == rightEnd <;> rfl

end World

namespace Gallery

open World

/-- Once an update has found a lane at rest near an end of the rail, the next launch sends its orb
to the other end, unless it has strayed. -/
theorem launch_from_rest (clock : Option Int) (ms later : List Move)
    (hms : ∀ m ∈ ms, m.keepsLength clock.isSome = true)
    (hlater : ∀ m ∈ later, m.keepsLength clock.isSome = true ∧ m ≠ .launch)
    (elapsed : Int) (helapsed : 0 ≤ elapsed) :
    let ticked := move (moves (opened clock) ms) (.tick elapsed)
    let w := ticked.2
    let launched := move (moves w later) .launch
    ticked.1 = .ok .done ∧ launched.1 = .ok .done ∧
      ∀ lane ∈ w.client.lanes, w.phase lane.duration ≠ .running →
        let finish := (launched.2.transitions.get lane.transition).finish
        (closeTo (w.orbX lane) leftEnd = true → finish = rightEnd) ∧
        (closeTo (w.orbX lane) rightEnd = true →
          finish = if w.strayed lane then rightEnd else leftEnd) := by
  intro ticked w launched
  have hhoming := homing_moves (homing_opened clock) hms
  obtain ⟨w', hmove, hhandled⟩ :=
    (move_tick hhoming.landed.steady (.inr helapsed)).resolve_left fun h => by omega
  have hw : w = w' := congrArg Prod.snd hmove
  obtain ⟨-, hdrawn⟩ := (hhoming.landed.advanceClock (.inr helapsed)).handled hhandled
  have hrest : w.Homing clock.isSome := homing_move hhoming (by
    simp [Move.keepsLength, Move.isOwn, helapsed])
  rw [← hw] at hdrawn
  obtain ⟨hsteady, hlater⟩ := goesOn_moves hrest.landed.steady hlater
  refine ⟨congrArg Prod.fst hmove, outcome_launch hsteady, fun lane hlane hphase => ?_⟩
  have hdone := (w.phase_ne_running_iff lane.duration).mp hphase
  have hvalue := hdrawn lane hlane (hrest.not_adrift hlane)
  have ha : lane.animation ∈ w.animations := List.mem_map_of_mem hlane
  have hfinish : (launched.2.transitions.get lane.transition).finish = w.farEnd lane := by
    rw [← hlater.farEnd ha hdone]
    exact finish_launch hsteady (hlater.animations.symm ▸ ha)
  rw [hfinish]
  exact hrest.farEnd_of_closeTo hlane hdone hvalue

/-- Orbs that have been turned back to the left end are launched to the right one, and turning them
around before does nothing. -/
theorem launch_from_rest_turned :
    let w := (move turned (.tick 800)).2
    w.client.lanes.length = 5 ∧ ∀ lane ∈ w.client.lanes,
      ((move (moves w [.reverse, .tick 100]) .launch).2.transitions.get lane.transition).finish =
        rightEnd := by
  have hlaunched := launch_from_rest (some 0) ([.launch] ++ [.tick 400, .reverse])
    [.reverse, .tick 100] (by decide) (by simp [Move.keepsLength, Move.isOwn]) 800 (by decide)
  rw [← turned] at hlaunched
  have hrest : (move turned (.tick 800)).2.client.lanes.length = 5 ∧
      ∀ lane ∈ (move turned (.tick 800)).2.client.lanes,
        (move turned (.tick 800)).2.phase lane.duration ≠ .running ∧
          closeTo ((move turned (.tick 800)).2.orbX lane) leftEnd = true := by
    decide +kernel
  generalize move turned (.tick 800) = ticked at hlaunched hrest ⊢
  refine ⟨hrest.1, fun lane hlane => ?_⟩
  obtain ⟨hphase, hclose⟩ := hrest.2 lane hlane
  exact (hlaunched.2.2 lane hlane hphase).1 hclose

/-- Launched again just before they arrive, and turned back, all orbs come to rest near the right
end, and that is where they are launched to. -/
theorem stays_near_right :
    let w := moves (opened (some 0))
      [.launch, .tick 799, .launch, .tick 100, .reverse, .tick 800]
    w.client.lanes.map (fun lane => closeTo (w.orbX lane) rightEnd) =
        [true, true, true, true, true] ∧
      ∀ lane ∈ w.client.lanes, w.phase lane.duration ≠ .running ∧
        ((move w .launch).2.transitions.get lane.transition).finish = rightEnd := by
  decide +kernel

end Gallery

end Tween
