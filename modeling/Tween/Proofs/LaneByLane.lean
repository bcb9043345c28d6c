import Tween.Proofs.Keeping

namespace Tween

namespace World

open Gallery Act

variable {w w' w₁ w₂ : World Hall} {lane : Lane}

/-- The world `w'` agrees with `w` in the timing, the transition and the orb of a lane, and in all
clocks and settings. -/
structure Spares (w w' : World Hall) (lane : Lane) : Prop where
  frame : w' = { w with
    durations := w'.durations, transitions := w'.transitions, bindings := w'.bindings
    systems := w'.systems, journal := w'.journal, client := w'.client }
  duration : w'.durations.get lane.duration = w.durations.get lane.duration
  transition : w'.transitions.get lane.transition = w.transitions.get lane.transition

def farEnd (w : World Hall) (lane : Lane) : Float :=
  if w.destination lane == rightEnd then leftEnd else rightEnd

structure Launched (w w' : World Hall) (lane : Lane) (x : Float) : Prop where
  frame : w' = { w with
    durations := w'.durations, transitions := w'.transitions, bindings := w'.bindings
    systems := w'.systems, journal := w'.journal }
  durations (q : Ref Duration) :
    w'.durations.get q =
      if lane.duration = q then
        { w.durations.get q with timer := ⟨some (w.nowOf q), true, false⟩ }
      else w.durations.get q
  transitions (r : Ref Transition) :
    w'.transitions.get r =
      if lane.transition = r then
        { w.transitions.get r with start := x, finish := w.farEnd lane }
      else w.transitions.get r

namespace Spares

theorem refl (w : World Hall) (lane : Lane) : w.Spares w lane :=
  ⟨rfl, rfl, rfl⟩

theorem trans (h : w.Spares w₁ lane) (h' : w₁.Spares w₂ lane) : w.Spares w₂ lane where
  frame := by
    rw [h'.frame, h.frame]
  duration := h'.duration.trans h.duration
  transition := h'.transition.trans h.transition

theorem timer (h : w.Spares w' lane) : w'.timer lane.duration = w.timer lane.duration :=
  congrArg Duration.timer h.duration

theorem orbX (h : w.Spares w' lane) : w'.orbX lane = w.orbX lane := by
  rw [h.frame]
  rfl

/-- What a spared lane answers about its timing is what it answered before. -/
theorem timing (h : w.Spares w' lane) :
    w'.phase lane.duration = w.phase lane.duration ∧
      w'.easing lane.duration = w.easing lane.duration ∧
      w'.progress lane.duration = w.progress lane.duration := by
  have hmonotonic : w'.monotonic = w.monotonic := by rw [h.frame]
  have hclocks : w'.clocks = w.clocks := by rw [h.frame]
  have hlengths : w'.lengths = w.lengths := by rw [h.frame]
  have hdescriptions : w'.descriptions = w.descriptions := by rw [h.frame]
  have hnow : w'.nowOf lane.duration = w.nowOf lane.duration := by
    unfold nowOf now
    rw [h.duration, hmonotonic, hclocks]
  have hlength : w'.length lane.duration = w.length lane.duration := by
    unfold length
    rw [h.duration, hlengths, hdescriptions]
  have heasing : w'.easing lane.duration = w.easing lane.duration := by
    unfold easing
    rw [h.duration, hdescriptions]
  have hfraction : w'.fraction lane.duration = w.fraction lane.duration := by
    unfold fraction hasLength
    rw [h.duration, h.timer, hnow, hlength]
  refine ⟨?_, heasing, ?_⟩
  · rw [phase, h.timer, hnow, hlength, ← phase]
  · rw [progress, finished, h.timer, hnow, hlength, heasing, hfraction, ← finished, ← progress]

theorem value (h : w.Spares w' lane)
    (hd : (w.transitions.get lane.transition).duration = lane.duration) :
    w'.value lane.transition = w.value lane.transition := by
  rw [World.value, h.transition, hd, h.timing.2.2, ← hd, ← World.value]

end Spares

theorem Retimed.spares {d : Ref Duration} {t : Timer} (h : w.Retimed w' d t)
    (hd : d ≠ lane.duration) : w.Spares w' lane where
  frame := by
    rw [h.frame]
  duration := by rw [h.durations, if_neg hd]
  transition := by rw [h.frame]

namespace Launched

variable {x : Float}

theorem spares {other : Lane} (h : w.Launched w' lane x) (hd : lane.duration ≠ other.duration)
    (ht : lane.transition ≠ other.transition) : w.Spares w' other where
  frame := by
    rw [h.frame]
  duration := by rw [h.durations, if_neg hd]
  transition := by rw [h.transitions, if_neg ht]

theorem timer (h : w.Launched w' lane x) (q : Ref Duration) :
    w'.timer q = if lane.duration = q then ⟨some (w.nowOf q), true, false⟩ else w.timer q := by
  rw [World.timer, h.durations]
  split <;> rfl

theorem nowOf (h : w.Launched w' lane x) (q : Ref Duration) : w'.nowOf q = w.nowOf q := by
  have hclock : (w'.durations.get q).clock = (w.durations.get q).clock := by
    rw [h.durations]
    split <;> rfl
  rw [World.nowOf, hclock, h.frame]
  rfl

end Launched

end World

namespace Gallery

open World Act

variable {w : World Hall} {lane : Lane}

/-- A lane that goes forward by now, turned around or not, is sent from a place to its far end. -/
theorem launched_of_forward {v : World Hall} {t : Timer} (hv : w.Retimed v lane.duration t)
    (ht : t.reversed = false) (x : Float) :
    ∃ w', (do
      animate lane.animation [x, w.farEnd lane]
      bindLane lane).perform v = (.ok (), w') ∧ w.Launched w' lane x := by
  let v₁ : World Hall := ((setEnds lane.transition x (w.farEnd lane)).perform v).2
  let v₂ : World Hall := v₁.withTimer lane.duration (·.start (v₁.nowOf lane.duration))
  have hrun : (animate lane.animation [x, w.farEnd lane]).perform v = (.ok (), v₂) := rfl
  have htransitions : ∀ r, v₂.transitions.get r =
      if lane.transition = r then
        { w.transitions.get r with start := x, finish := w.farEnd lane }
      else w.transitions.get r := by
    intro r
    have hsame : v.transitions = w.transitions := by rw [hv.frame]
    change (v.transitions.set lane.transition _).get r = _
    rw [Store.get_set, hsame]
    split
    · next heq => rw [heq]
    · rfl
  have hdurations : ∀ q, v₂.durations.get q =
      if lane.duration = q then
        { w.durations.get q with timer := ⟨some (w.nowOf q), true, false⟩ }
      else w.durations.get q := by
    intro q
    rw [get_withTimer]
    change (if lane.duration = q then { v.durations.get q with
      timer := (v.timer q).start (v.nowOf lane.duration) } else v.durations.get q) = _
    rw [hv.nowOf, hv.timer, hv.durations]
    split
    · next heq =>
      subst heq
      rw [Timer.start, ht]
    · rfl
  have hframe : v₂ = { w with
      durations := v₂.durations, transitions := v₂.transitions, journal := v₂.journal } := by
    change { v with durations := _, transitions := _ } = _
    rw [hv.frame]
    rfl
  rw [perform_bind_ok _ hrun, perform_bindLane]
  -- Bound before or not, the frame leaves the bindings and the systems open.
  clear_value v₂
  refine ⟨_, rfl, ?_⟩
  split
  · exact ⟨by rw [hframe], hdurations, htransitions⟩
  · exact ⟨by rw [enlisted, hframe], hdurations, htransitions⟩

/-- A launch sends a lane forward from its current value, whichever way it went before. -/
theorem launched_launchLane {x : Float} (hx : w.value lane.transition = .ok x) :
    ∃ w', (launchLane lane).perform w = (.ok (), w') ∧ w.Launched w' lane x := by
  have hvalue := perform_value w lane.transition
  rw [hx] at hvalue
  rw [launchLane, perform_bind_ok _ hvalue, perform_get_bind]
  have hlooked := Retimed.looked w lane.duration (w.transitions.get lane.transition).duration
    (w.lookups (w.transitions.get lane.transition).duration)
  generalize hv : w.looked _ _ = v at hlooked
  have hdestination : v.destination lane = w.destination lane := by rw [← hv]; rfl
  have htimer : v.timer lane.duration = w.timer lane.duration := by rw [← hv]; rfl
  dsimp only
  rw [hdestination, htimer]
  cases hreversed : (w.timer lane.duration).reversed with
  | false => exact launched_of_forward hlooked hreversed x
  | true =>
    rw [if_pos rfl, perform_bind_ok _ (perform_reverse lane.duration v)]
    refine launched_of_forward ((hlooked.thenLooked lane.duration 1).withTimer _) ?_ x
    rw [Timer.reverse, hreversed]
    rfl

/-- A loop over the lanes does to each what it would do to that one alone, if what it does to one
spares the others. -/
theorem forM_lanes {f : Lane → Act Hall Unit} {lanes : List Lane} {I : World Hall → Prop}
    {R : Lane → World Hall → World Hall → Prop} (hnodup : (lanes.map Lane.duration).Nodup)
    (hf : ∀ lane ∈ lanes, ∀ v, I v → ∃ v', (f lane).perform v = (.ok (), v') ∧ I v' ∧ R lane v v' ∧
      ∀ other ∈ lanes, lane.duration ≠ other.duration → v.Spares v' other) (hw : I w) :
    ∃ w', (lanes.forM f).perform w = (.ok (), w') ∧ I w' ∧
      ∀ lane ∈ lanes, ∃ v v', w.Spares v lane ∧ R lane v v' ∧ v'.Spares w' lane := by
  -- The rest of the list spares the lanes that are not in it.
  suffices hrest : ∀ rest : List Lane, rest.Sublist lanes → ∀ w, I w →
      ∃ w', (rest.forM f).perform w = (.ok (), w') ∧ I w' ∧
        (∀ lane ∈ rest, ∃ v v', w.Spares v lane ∧ R lane v v' ∧ v'.Spares w' lane) ∧
        ∀ other ∈ lanes, (∀ lane ∈ rest, lane.duration ≠ other.duration) → w.Spares w' other by
    obtain ⟨w', hrun, hI, hall, -⟩ := hrest lanes (.refl lanes) w hw
    exact ⟨w', hrun, hI, hall⟩
  intro rest
  induction rest with
  | nil => exact fun _ w hw => ⟨w, rfl, hw, List.forall_mem_nil _, fun other _ _ => .refl w other⟩
  | cons a rest ih =>
    intro hsub w hw
    have hmem := hsub.subset
    have hfresh := (hnodup.sublist (hsub.map Lane.duration))
    rw [List.map_cons, List.nodup_cons] at hfresh
    have hne : ∀ lane ∈ rest, lane.duration ≠ a.duration := fun lane hlane heq =>
      hfresh.1 (heq ▸ List.mem_map_of_mem hlane)
    obtain ⟨v, hfirst, hv, hR, hspares⟩ := hf a (hmem List.mem_cons_self) w hw
    obtain ⟨w', hrun, hw', hall, hothers⟩ := ih (List.sublist_of_cons_sublist hsub) v hv
    refine ⟨w', ?_, hw', ?_, fun other hother hout => ?_⟩
    · rw [List.forM_eq_forM, List.forM_cons, perform_bind_ok _ hfirst]
      exact hrun
    · rw [List.forall_mem_cons]
      refine ⟨⟨w, v, .refl w a, hR, hothers a (hmem List.mem_cons_self) hne⟩, fun lane hlane => ?_⟩
      obtain ⟨u, u', hbefore, hR', hafter⟩ := hall lane hlane
      have hfirst' := hspares lane (hmem (List.mem_cons_of_mem a hlane)) (hne lane hlane).symm
      exact ⟨u, u', hfirst'.trans hbefore, hR', hafter⟩
    · rw [List.forall_mem_cons] at hout
      exact (hspares other hother hout.1).trans (hothers other hother hout.2)

theorem retimed_reverseRunning (w : World Hall) (lane : Lane) :
    ∃ w', (phase lane.duration >>= fun phase =>
        if phase = .running then reverseLane lane else pure ()).perform w = (.ok (), w') ∧
      w.Retimed w' lane.duration
        (if w.phase lane.duration = .running then
          (w.timer lane.duration).reverse (w.nowOf lane.duration) (w.length lane.duration)
        else w.timer lane.duration) := by
  have hlooked := Retimed.looked w lane.duration lane.duration (w.lookups lane.duration)
  rw [perform_bind_ok _ (perform_phase lane.duration w)]
  split
  · rw [reverseLane, perform_reverse]
    exact ⟨_, rfl, (hlooked.thenLooked lane.duration 1).withTimer _⟩
  · exact ⟨_, rfl, hlooked⟩

end Gallery

end Tween
