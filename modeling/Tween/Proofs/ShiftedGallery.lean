import Tween.Proofs.Opening
import Tween.Proofs.ShiftedRuns

namespace Tween

namespace World

variable {κ : Type}

instance {α : Type} (s : Store α) (r : Ref α) : Decidable (s.Holds r) :=
  inferInstanceAs (Decidable (r.index ∈ s.cells.map Prod.fst))

instance (w : World κ) : (clock : Clock) → Decidable (w.Knows clock)
  | .system => isTrue trivial
  | .manual r => inferInstanceAs (Decidable (w.clocks.Holds r))

/-- Nothing but the readings of the manual clocks tells `w'` from `w`, and they read more by `c`. -/
structure Later (c : Int) (w w' : World κ) : Prop where
  reading : ∀ r, w.clocks.Holds r → w'.now (.manual r) = w.now (.manual r) + c
  duration : ∀ d, w'.viewDuration d = w.viewDuration d
  transition : ∀ r, w'.viewTransition r = w.viewTransition r
  lengths : w'.lengths = w.lengths
  descriptions : w'.descriptions = w.descriptions
  targets : w'.targets = w.targets
  bindings : w'.bindings = w.bindings
  systems : w'.systems = w.systems
  journal : w'.journal = w.journal
  client : w'.client = w.client

theorem Grounded.later {home : κ → List Clock} {w : World κ} (h : w.Grounded home) (c : Int) :
    Later c w (w.shifted c) where
  reading r hr := now_shifted (show w.Knows (.manual r) from hr)
  duration := viewDuration_shifted h
  transition := viewTransition_shifted h
  lengths := rfl
  descriptions := rfl
  targets := rfl
  bindings := rfl
  systems := rfl
  journal := rfl
  client := rfl

theorem grounded_empty : World.empty.Grounded fun _ => [] :=
  ⟨fun _ => trivial, List.forall_mem_nil _⟩

end World

namespace Gallery

open World Act

def Move.shifted (c : Int) : Move → Move
  | .reset now => .reset (now + c)
  | m => m

def Hall.clocks (hall : Hall) : List Clock :=
  [hall.clock]

theorem destination_shifted (c : Int) (w : World Hall) (lane : Lane) :
    (w.shifted c).destination lane = w.destination lane := by
  rw [destination, timer_shifted]
  rfl

section

variable {c : Int} {w : World Hall} (h : w.Grounded Hall.clocks)
include h

theorem viewLane_shifted (lane : Lane) : viewLane (w.shifted c) lane = viewLane w lane := by
  rw [viewLane, phase_shifted h, timer_shifted, destination_shifted]
  rfl

theorem drifts_note (notice : Notice) : Drifts c Hall.clocks w (note notice) (note notice) :=
  .of_perform rfl rfl ⟨h.durations, h.home⟩

theorem drifts_bindLane (lane : Lane) : Drifts c Hall.clocks w (bindLane lane) (bindLane lane) := by
  refine .get_bind ?_
  dsimp only
  rw [show (w.shifted c).systems = w.systems from rfl,
    show (w.shifted c).bindings = w.bindings from rfl,
    show (w.shifted c).client = w.client from rfl]
  split
  · exact .bind (.of_perform rfl rfl ⟨h.durations, h.home⟩) fun b _ hv => Drifts.enlist hv _ b
  · exact .pure h ()

theorem drifts_launchLane (lane : Lane) :
    Drifts c Hall.clocks w (launchLane lane) (launchLane lane) := by
  refine (Drifts.value h lane.transition).bind fun current v hv => .get_bind ?_
  dsimp only
  rw [destination_shifted, timer_shifted, Timer.shifted]
  have hsend : ∀ v', v'.Grounded Hall.clocks → ∀ finish, Drifts c Hall.clocks v'
      (animate lane.animation [current, finish] >>= fun _ => bindLane lane)
      (animate lane.animation [current, finish] >>= fun _ => bindLane lane) := fun v' hv' finish =>
    (Drifts.animate hv' lane.animation _).bind fun _ _ hu => drifts_bindLane hu lane
  split
  · exact (Drifts.reverse hv lane.duration).bind fun _ v' hv' => hsend v' hv' _
  · exact hsend v hv _

theorem drifts_launch : Drifts c Hall.clocks w launch launch :=
  .get_bind (.forM (fun lane _ hv => drifts_launchLane hv lane) h _)

theorem drifts_reverseAll : Drifts c Hall.clocks w reverseAll reverseAll := by
  refine .get_bind (.forM (fun lane v hv => ?_) h _)
  refine (Drifts.phase hv lane.duration).bind fun phase v' hv' => ?_
  split
  · exact Drifts.reverse hv' lane.duration
  · exact .pure hv' ()

theorem drifts_setLength (length : Int) :
    Drifts c Hall.clocks w (setLength length) (setLength length) := by
  refine .bind (.of_perform rfl rfl ⟨h.durations, h.home⟩) fun _ v hv => .get_bind ?_
  refine .bind (.forM (fun lane v hv => .get_bind ?_) hv _) fun _ u hu => drifts_note hu _
  exact (Drifts.setDescriptionText hv lane.setting _).bind fun _ _ hv' => .pure hv' ()

theorem drifts_complete (b : Ref Binding) :
    Drifts c Hall.clocks w (complete b) (complete b) := by
  refine .get_bind ?_
  dsimp only
  rw [show (w.shifted c).bindings = w.bindings from rfl,
    show (w.shifted c).client = w.client from rfl]
  split
  · exact .of_perform rfl rfl h
  · exact .bind (.of_perform rfl rfl ⟨h.durations, h.home⟩) fun _ v hv => drifts_note hv _

theorem drifts_tick : Drifts c Hall.clocks w tick tick :=
  .get_bind (Drifts.tickWith _ h fun b _ hv => drifts_complete hv b)

theorem drifts_source (gauge : Gauge) : Drifts c Hall.clocks w gauge.source gauge.source := by
  cases gauge with
  | shared => exact .pure h _
  | length | description => exact .of_perform rfl rfl ⟨h.durations, h.home⟩

theorem drifts_tempo (tempo : Tempo) : Drifts c Hall.clocks w tempo.duration tempo.duration := by
  cases tempo with
  | shared d => exact .pure h d
  | own n =>
    refine (drifts_source h n.gauge).bind fun source v hv => .get_bind ?_
    dsimp only
    rw [show (v.shifted c).client = v.client from rfl]
    have hknown : v.Knows (if n.onMachine then .system else v.client.clock) := by
      obtain ⟨r, hclock, hr⟩ := hv.home _ (List.mem_singleton.mpr rfl)
      split
      · trivial
      · exact hclock ▸ hr
    generalize (if n.onMachine then Clock.system else v.client.clock) = clock at hknown ⊢
    have hadd := Drifts.addDuration (c := c) hv
      (x := ⟨source, n.smoothing, clock, ⟨n.age.map (v.now clock - ·), n.pending, n.reversed⟩⟩) hknown
    have hstart : n.age.map ((v.shifted c).now clock - ·) =
        (n.age.map (v.now clock - ·)).map (· + clock.drift c) := by
      rw [now_shifted hknown, Option.map_map]
      congr 1
      funext age
      exact add_sub_right_comm ..
    rw [hstart]
    exact hadd

theorem drifts_course (course : Course) :
    Drifts c Hall.clocks w course.transition course.transition := by
  cases course with
  | shared r => exact .pure h r
  | own start finish tempo =>
    exact (drifts_tempo h tempo).bind fun d v hv => .of_perform rfl rfl ⟨hv.durations, hv.home⟩

theorem drifts_bindForeign (foreign : Foreign) :
    Drifts c Hall.clocks w (bindForeign foreign) (bindForeign foreign) := by
  refine (drifts_course h foreign.course).bind fun r v hv => .get_bind ?_
  rw [show (v.shifted c).client = v.client from rfl,
    show (v.shifted c).transitions = v.transitions from rfl]
  split
  · exact .bind (.of_perform rfl rfl ⟨hv.durations, hv.home⟩) fun b v hv => Drifts.enlist hv _ b
  · exact .pure hv ()

theorem drifts_advanceClock (ms : Int) :
    Drifts c Hall.clocks w (advanceClock ms) (advanceClock ms) := by
  obtain ⟨r, hclock, hr⟩ := h.home _ (List.mem_singleton.mpr rfl)
  refine .get_bind ?_
  rw [show (w.shifted c).client = w.client from rfl, hclock]
  refine .of_perform (perform_bind_pure _ _ w) ?_ (grounded_advance h r ms)
  refine (perform_bind_pure (advance r ms) _ _).trans ?_
  rw [perform_advance_shifted hr]
  cases ((advance r ms).perform w).1 <;> rfl

theorem drifts_setClock (now : Int) :
    Drifts c Hall.clocks w (setClock now) (setClock (now + c)) := by
  obtain ⟨r, hclock, -⟩ := h.home _ (List.mem_singleton.mpr rfl)
  refine .get_bind ?_
  rw [show (w.shifted c).client = w.client from rfl, hclock]
  exact drifts_resetClock h r now

theorem drifts_onLane (i : Nat) {f : Lane → Act Hall Reply}
    (hf : ∀ lane, Drifts c Hall.clocks w (f lane) (f lane)) :
    Drifts c Hall.clocks w (onLane i f) (onLane i f) := by
  refine .get_bind ?_
  rw [show (w.shifted c).client = w.client from rfl]
  split
  · exact hf _
  · exact .pure h _

theorem drifts_make (m : Move) : Drifts c Hall.clocks w (make m) (make (m.shifted c)) := by
  cases m with
  | launch => exact (drifts_launch h).reply fun _ => Reply.done
  | reverse => exact (drifts_reverseAll h).reply fun _ => Reply.done
  | setLength length => exact (drifts_setLength h length).reply fun _ => Reply.done
  | reverseLane i =>
    exact drifts_onLane h i fun lane => (Drifts.reverse h lane.duration).reply fun _ => Reply.done
  | configureLane i text =>
    exact drifts_onLane h i fun lane =>
      (Drifts.setDescriptionText h lane.setting text).reply Reply.flag
  | bindForeign foreign => exact (drifts_bindForeign h foreign).reply fun _ => Reply.done
  | advance ms => exact (drifts_advanceClock h ms).reply fun _ => Reply.done
  | reset now => exact (drifts_setClock h now).reply fun _ => Reply.done
  | tick ms =>
    exact (drifts_advanceClock h ms).bind fun _ _ hv => (drifts_tick hv).reply fun _ => Reply.done

theorem moves_shifted (ms : List Move) :
    moves (w.shifted c) (ms.map (·.shifted c)) = (moves w ms).shifted c ∧
      (moves w ms).Grounded Hall.clocks := by
  induction ms generalizing w with
  | nil => exact ⟨rfl, h⟩
  | cons m rest ih =>
    obtain ⟨hperform, hgrounded⟩ := drifts_make (c := c) h m
    rw [List.map_cons, moves, List.foldl_cons, move, hperform]
    exact ih hgrounded

end

theorem drifts_openLane {c : Int} {w : World Hall} {r : Ref ManualClock}
    (h : w.Grounded fun _ => [.manual r]) (length : Int) (title easing : String) :
    Drifts c (fun _ => [.manual r]) w (openLane length (.manual r) title easing)
      (openLane length (.manual r) title easing) := by
  refine (Drifts.query h rfl).bind fun s v hv => ?_
  refine .bind (.of_perform rfl rfl ⟨hv.durations, hv.home⟩) fun q v hv => ?_
  have hclock : v.Knows (.manual r) := by
    obtain ⟨q, hq, hheld⟩ := hv.home _ (List.mem_singleton.mpr rfl)
    exact hq ▸ hheld
  refine (Drifts.newAnimation hv hclock).bind fun a v hv => ?_
  refine (Drifts.setEnds hv _ _ _).bind fun _ v hv => ?_
  refine .bind (.of_perform rfl rfl ⟨hv.durations, hv.home⟩) fun orb v hv => ?_
  exact .of_perform rfl rfl ⟨hv.durations, hv.home⟩

def vacant (start : Int) : World Hall :=
  { clocks := (({} : Store ManualClock).add ⟨start⟩).2, client := {} }

theorem opened_eq (start : Int) :
    opened (some start) = ((openHall (.manual ⟨0⟩)).perform (vacant start)).2 := by
  have hclock : (newClock start).perform { client := ({} : Hall) } = (.ok ⟨0⟩, vacant start) := rfl
  rw [opened, onManualClock, perform_bind_ok _ hclock]

theorem drifts_openHall {c : Int} {w : World Hall} {r : Ref ManualClock}
    (h : w.Grounded fun _ => [.manual r]) :
    Drifts c (fun _ => [.manual r]) w (openHall (.manual r)) (openHall (.manual r)) := by
  have hlane : ∀ (p : String × String) (v : World Hall), (v.Grounded fun _ => [.manual r]) →
      Drifts c (fun _ => [.manual r]) v (openLane defaultLength (.manual r) p.1 p.2)
        (openLane defaultLength (.manual r) p.1 p.2) := fun p v hv => drifts_openLane hv _ p.1 p.2
  refine (Drifts.mapM hlane h laneEasings).bind fun lanes v hv => ?_
  refine .bind (.of_perform rfl rfl ⟨hv.durations, hv.home⟩) fun s v hv => ?_
  exact .of_perform rfl rfl ⟨hv.durations, hv.home⟩

theorem opened_shifted (c start : Int) :
    opened (some (start + c)) = (opened (some start)).shifted c ∧
      (opened (some start)).Grounded Hall.clocks := by
  have hvacant : World.Grounded (fun _ : Hall => [.manual ⟨0⟩]) (vacant start) :=
    ⟨fun _ => trivial, fun clock hclock =>
      ⟨⟨0⟩, List.mem_singleton.mp hclock, Store.holds_add _ _⟩⟩
  have hdrifts := drifts_openHall (c := c) hvacant
  have hshifted : vacant (start + c) = (vacant start).shifted c := rfl
  obtain ⟨v, lanes, hopen, -⟩ := perform_openHall (P := fun _ _ => True) (.manual ⟨0⟩)
    (w := vacant start) trivial fun _ _ _ _ _ _ _ _ => trivial
  refine ⟨by rw [opened_eq, opened_eq, hshifted, hdrifts.perform], ?_⟩
  -- By now the gallery holds the clock that it was opened on.
  have hgrounded := hdrifts.grounded
  rw [hopen] at hgrounded
  rw [opened_eq, hopen]
  exact ⟨hgrounded.durations, hgrounded.home⟩

/-- Only differences of time matter: with all readings that clocks start at or are set to larger by
`c`, a run answers as the original one does, but for the readings, and so does the gallery. -/
theorem later_of_shifted (c : Int) :
    (∀ ops : List Op,
      (∀ a ∈ World.empty.calls ops, ∀ clock ∈ a.op.clocks, a.before.Knows clock) →
      (World.empty.run (ops.map (·.shifted c))).1 =
          (World.empty.calls ops).map (·.shiftedOutcome c) ∧
        Later c (World.empty.after ops) (World.empty.after (ops.map (·.shifted c)))) ∧
    (∀ (start : Int) (ms : List Move),
      let w := moves (opened (some start)) ms
      let w' := moves (opened (some (start + c))) (ms.map (·.shifted c))
      Later c w w' ∧ (∀ lane, viewLane w' lane = viewLane w lane) ∧
        ∀ m, (move w' (m.shifted c)).1 = (move w m).1) := by
  refine ⟨fun ops hclocks => ?_, fun start ms => ?_⟩
  · obtain ⟨hrun, hgrounded⟩ := run_shifted (c := c) grounded_empty hclocks
    rw [show World.empty.shifted c = World.empty from rfl] at hrun
    have hafter : World.empty.after (ops.map (·.shifted c)) = (World.empty.after ops).shifted c :=
      congrArg Prod.snd hrun
    exact ⟨congrArg Prod.fst hrun, hafter ▸ hgrounded.later c⟩
  · intro w w'
    obtain ⟨hopened, hstart⟩ := opened_shifted c start
    obtain ⟨hmoves, hgrounded⟩ := moves_shifted (c := c) hstart ms
    have hw' : w' = w.shifted c := by rw [← hmoves, ← hopened]
    rw [hw']
    refine ⟨hgrounded.later c, viewLane_shifted hgrounded, fun m => ?_⟩
    have hmake := (drifts_make (c := c) hgrounded m).perform
    rw [move, hmake]
    rfl

/-- A start at zero and a turn there are those of a clock that reads -7. -/
theorem later_of_shifted_below_zero :
    let ops : List Op := [.newClock 0, .newLength (.whole "length" 100),
      .newDuration { length := some ⟨0⟩, clock := .manual ⟨0⟩ }, .onDuration ⟨0⟩ .start,
      .onClock ⟨0⟩ (.advance 30), .onDuration ⟨0⟩ .reverse, .onClock ⟨0⟩ (.reset 5),
      .onDuration ⟨0⟩ .elapsed]
    (∀ a ∈ World.empty.calls ops, ∀ clock ∈ a.op.clocks, a.before.Knows clock) ∧
      (World.empty.run (ops.map (·.shifted (-7)))).1 =
        (World.empty.calls ops).map (·.shiftedOutcome (-7)) ∧
      (World.empty.after ops).elapsed ⟨0⟩ = some 45 := by
  intro ops
  have hclocks : ∀ a ∈ World.empty.calls ops, ∀ clock ∈ a.op.clocks, a.before.Knows clock := by
    decide
  exact ⟨hclocks, ((later_of_shifted (-7)).1 ops hclocks).1, by decide⟩

end Gallery

end Tween
