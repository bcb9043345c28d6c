import Tween.Proofs.Bookkeeping
import Tween.Proofs.LaneByLane
import Tween.Proofs.UnitInterval

namespace Tween

namespace Description

open Text

/-- Whether what can be read from the name of the easing is that easing. -/
def Faithful (d : Description) : Prop :=
  ∀ name easing, readEasing? (words d.easingName.toList) = some (name, easing) →
    name = d.easingName ∧ easing = d.easing

theorem faithful_of_names {d : Description} {ws : List (List Char)}
    (h : NamesEasing ws d.easingName d.easing) : d.Faithful := by
  intro name easing hread
  by_cases hfin : d.easing.IsFinite
  · rw [readEasing?_words_name h hfin] at hread
    cases hread
    exact ⟨rfl, rfl⟩
  · rw [readEasing?_words_name_eq_none h hfin] at hread
    cases hread

theorem faithful_of_read? {text : String} {d : Description} (h : read? text = .ok (some d)) :
    d.Faithful := by
  obtain ⟨n, ws, -, -, heasing, -⟩ := of_read? h
  exact faithful_of_names heasing

def lengthRead? (length : Int) : Option Int :=
  readLength? (Number.naturalDigits length.natAbs) .milliseconds

theorem read?_withLength {length : Int} (hlength : 0 ≤ length) (name : String) :
    read? (Gallery.withLength length name) =
      .ok ((readEasing? (words name.toList)).bind fun (name, easing) =>
        (lengthRead? length).map fun n => ⟨n, name, easing⟩) := by
  rw [Gallery.withLength, Number.integerDigits, if_neg (not_lt.mpr hlength)]
  exact read?_written length.natAbs name

/-- A new length goes with the easing that is named, if it can be read at all. -/
theorem easing_of_read?_withLength {length : Int} (hlength : 0 ≤ length) {d d' : Description}
    (hd : d.Faithful) (h : read? (Gallery.withLength length d.easingName) = .ok (some d')) :
    d'.easing = d.easing := by
  rw [read?_withLength hlength] at h
  cases heasing : readEasing? (words d.easingName.toList) with
  | none =>
    rw [heasing] at h
    cases h
  | some p =>
    rw [heasing] at h
    cases hread : lengthRead? length with
    | none =>
      rw [hread] at h
      cases h
    | some n =>
      rw [hread] at h
      cases h
      exact (hd p.1 p.2 heasing).2

end Description

theorem Gallery.clampLength_nonneg (length : Int) : 0 ≤ clampLength length := by
  unfold clampLength minLength maxLength
  omega

namespace World

open Gallery Act

variable {manual : Bool} {w w' : World Hall}

structure Relengthed (w w' : World Hall) : Prop where
  frame : w' = { w with
    descriptions := w'.descriptions, journal := w'.journal
    client := { w.client with length := w'.client.length } }
  easing : ∀ r, (w'.descriptions.get r).value.easing = (w.descriptions.get r).value.easing
  faithful : ∀ r, (w'.descriptions.get r).value.Faithful

/-- The gallery without foreign bindings, on a clock that does not go back: on one of its own, if it
is manual. -/
structure Steady (manual : Bool) (w : World Hall) : Prop where
  tidy : w.Tidy
  homely : w.Homely
  orbs : (w.client.lanes.map Lane.orb).Nodup
  timely : ∀ d start, (w.timer d).startedAt = some start → start ≤ w.nowOf d
  faithful : ∀ r, (w.descriptions.get r).value.Faithful
  clock : manual = true → ∃ r, w.client.clock = .manual r

/-- A text for a setting that names the easing which it has leaves it with that easing. -/
theorem Relengthed.setDescriptionText {v : World Hall} (h : w.Relengthed v)
    (r : Ref (Setting Description)) {length : Int} (hlength : 0 ≤ length) :
    w.Relengthed ((Act.setDescriptionText r
      (withLength length (v.descriptions.get r).value.easingName)).perform v).2 := by
  rw [perform_setDescriptionText]
  cases hread : Description.read? (withLength length (v.descriptions.get r).value.easingName) with
  | error fault => exact h
  | ok d =>
    cases d with
    | none =>
      refine ⟨?_, h.easing, h.faithful⟩
      rw [h.frame]
    | some d =>
      have hget : ∀ q, ((v.descriptions.modify r (·.set d)).get q).value =
          if r = q then d else (v.descriptions.get q).value := by
        intro q
        rw [Store.modify, Store.get_set]
        split <;> rfl
      refine ⟨?_, fun q => ?_, fun q => ?_⟩
      · rw [h.frame]
      · dsimp only
        rw [hget]
        split
        · next heq =>
          subst heq
          rw [Description.easing_of_read?_withLength hlength (h.faithful r) hread, h.easing]
        · exact h.easing q
      · dsimp only
        rw [hget]
        split
        · exact Description.faithful_of_read? hread
        · exact h.faithful q

theorem relengthed_setLength (h : ∀ r, (w.descriptions.get r).value.Faithful) (length : Int) :
    w.Relengthed ((setLength length).perform w).2 := by
  have hlength := clampLength_nonneg length
  refine Keeps.bind (P := w.Relengthed) (fun v hv => ?_) (fun _ => ?_) w ⟨rfl, fun _ => rfl, h⟩
  · refine ⟨?_, hv.easing, hv.faithful⟩
    rw [hv.frame]
    rfl
  · refine .get_bind fun v hv => ?_
    refine Keeps.bind (.forM fun lane _ => .get_bind fun u hu => ?_) (fun _ u hu => ?_) v hv
    · rw [perform_bind_pure]
      exact hu.setDescriptionText lane.setting hlength
    · refine ⟨?_, hu.easing, hu.faithful⟩
      rw [hu.frame]
      rfl

theorem advanceClock_forward {ms : Int} (hclock : manual = true → ∃ r, w.client.clock = .manual r)
    (hms : manual = true ∨ 0 ≤ ms) :
    ∃ r v, (advanceClock ms).perform w = (r, v) ∧
      v = { w with monotonic := v.monotonic, clocks := v.clocks } ∧
      (∀ c, w.now c ≤ v.now c) ∧ (0 ≤ ms → r = .ok ()) := by
  rw [advanceClock, perform_get_bind]
  split
  · next r _ =>
    rw [perform_bind_pure, perform_advance]
    split
    · next hneg => exact ⟨_, _, rfl, rfl, fun _ => le_rfl, fun h => absurd hneg (not_lt.mpr h)⟩
    · next hpos =>
      refine ⟨_, _, rfl, rfl, fun c => ?_, fun _ => rfl⟩
      cases c with
      | system => exact le_rfl
      | manual q =>
        change (w.clocks.get q).now ≤ ((w.clocks.set r _).get q).now
        rw [Store.get_set]
        split
        · next heq =>
          subst heq
          dsimp only
          omega
        · exact le_rfl
  · next hsystem =>
    have hpos : 0 ≤ ms := by
      refine hms.resolve_left fun hmanual => ?_
      obtain ⟨r, hr⟩ := hclock hmanual
      rw [hr] at hsystem
      cases hsystem
    refine ⟨_, _, rfl, rfl, fun c => ?_, fun _ => rfl⟩
    cases c with
    | manual q => exact le_rfl
    | system =>
      -- The clock of the machine counts nanoseconds and answers in whole milliseconds.
      change w.monotonic.fdiv nanosPerMilli ≤ (w.monotonic + ms * nanosPerMilli).fdiv nanosPerMilli
      rw [nanosPerMilli, Int.fdiv_eq_ediv_of_nonneg _ (by omega),
        Int.fdiv_eq_ediv_of_nonneg _ (by omega)]
      omega

namespace Steady

theorem isOk_progress (h : w.Steady manual) {lane : Lane} (hlane : lane ∈ w.client.lanes) :
    (w.progress lane.duration).isOk = true :=
  World.isOk_progress (h.tidy.isCurve_easing hlane) (h.timely _)

theorem exists_value (h : w.Steady manual) {lane : Lane} (hlane : lane ∈ w.client.lanes) :
    ∃ x, w.value lane.transition = .ok x := by
  rw [value, h.tidy.wired.duration lane hlane, progress_eq_reading (h.isOk_progress hlane)]
  exact ⟨_, rfl⟩

theorem isOk_progress_followed (h : w.Steady manual) {d : Ref Duration} (hd : d ∈ w.followed) :
    (w.progress d).isOk = true := by
  obtain ⟨b, hb, rfl⟩ := List.mem_map.mp hd
  obtain ⟨lane, hlane, -, hduration⟩ := h.homely.exists_lane h.tidy hb
  exact hduration ▸ h.isOk_progress hlane

theorem of_kept {m : Move} (h : w.Steady manual) (hk : Kept m w w') (hm : m.isForeign = false)
    (htimely : ∀ d start, (w'.timer d).startedAt = some start → start ≤ w'.nowOf d)
    (hfaithful : ∀ r, (w'.descriptions.get r).value.Faithful)
    (hclock : w'.client.clock = w.client.clock) : w'.Steady manual where
  tidy := hk.tidy
  homely := hk.homely hm h.homely
  orbs := hk.lanes ▸ h.orbs
  timely := htimely
  faithful := hfaithful
  clock := hclock ▸ h.clock

theorem setLength (h : w.Steady manual) (length : Int) :
    ((Gallery.setLength length).perform w).2.Steady manual := by
  have hkept := Kept.setLength (m := .setLength length) h.tidy length
  have hnew := relengthed_setLength h.faithful length
  generalize ((Gallery.setLength length).perform w).2 = v at hkept hnew
  refine h.of_kept hkept rfl ?_ hnew.faithful (by rw [hnew.frame])
  rw [hnew.frame]
  exact h.timely

theorem advanceClock (h : w.Steady manual) {ms : Int} (hms : manual = true ∨ 0 ≤ ms) :
    ((Gallery.advanceClock ms).perform w).2.Steady manual := by
  have hkept := Kept.advanceClock (m := .advance ms) h.tidy ms
  obtain ⟨r, v, hrun, hframe, hnow, -⟩ := advanceClock_forward h.clock hms
  rw [hrun] at hkept ⊢
  dsimp only at hkept ⊢
  have hdurations : v.durations = w.durations := by rw [hframe]
  refine h.of_kept hkept rfl (fun d start hstart => ?_) ?_ (by rw [hframe])
  · rw [World.timer, hdurations] at hstart
    rw [World.nowOf, hdurations]
    exact (h.timely d start hstart).trans (hnow _)
  · rw [hframe]
    exact h.faithful

theorem retimed {m : Move} (h : w.Steady manual) (hk : Kept m w w') (hm : m.isForeign = false)
    {d : Ref Duration} {t : Timer} (hr : w.Retimed w' d t)
    (ht : ∀ start, t.startedAt = some start → start ≤ w.nowOf d) : w'.Steady manual := by
  refine h.of_kept hk hm (fun q start hstart => ?_) ?_ (by rw [hr.frame])
  · rw [hr.timer] at hstart
    rw [hr.nowOf]
    split at hstart
    · next heq =>
      subst heq
      exact ht start hstart
    · exact h.timely q start hstart
  · rw [hr.frame]
    exact h.faithful

/-- A lane in flight turns around with what is pending, and the others stay as they are. -/
theorem reverseAll (h : w.Steady manual) :
    ∃ w', Gallery.reverseAll.perform w = (.ok (), w') ∧ w'.Steady manual ∧
      w'.client.lanes = w.client.lanes ∧ ∀ lane ∈ w.client.lanes,
        (w.phase lane.duration = .running ∧
          (w'.timer lane.duration).pending = (w.timer lane.duration).pending) ∨
        w.Spares w' lane := by
  rw [Gallery.reverseAll, perform_get_bind]
  have hstep : ∀ lane ∈ w.client.lanes, ∀ v, v.Steady manual ∧ v.client.lanes = w.client.lanes →
      ∃ v', (Act.phase lane.duration >>= fun phase =>
          if phase = .running then reverseLane lane else pure ()).perform v = (.ok (), v') ∧
        (v'.Steady manual ∧ v'.client.lanes = w.client.lanes) ∧
        v.Retimed v' lane.duration (if v.phase lane.duration = .running then
          (v.timer lane.duration).reverse (v.nowOf lane.duration) (v.length lane.duration)
        else v.timer lane.duration) ∧
        ∀ other ∈ w.client.lanes, lane.duration ≠ other.duration → v.Spares v' other := by
    intro lane _ v hv
    obtain ⟨v', hrun, hretimed⟩ := retimed_reverseRunning v lane
    have hkept := Kept.reverseRunning (m := .reverse) hv.1.tidy lane
    rw [hrun] at hkept
    refine ⟨v', hrun, ⟨hv.1.retimed hkept rfl hretimed fun start hstart => ?_,
      hkept.lanes.trans hv.2⟩, hretimed, fun other _ hne => hretimed.spares hne⟩
    split at hstart
    · exact Timer.le_of_startedAt_reverse hstart
    · exact hv.1.timely _ start hstart
  -- The steps spare each other's lanes, so each lane shows what its own step did.
  obtain ⟨w', hrun, hw', hlanes⟩ := forM_lanes h.tidy.wired.apart hstep ⟨h, rfl⟩
  refine ⟨w', hrun, hw'.1, hw'.2, fun lane hlane => ?_⟩
  obtain ⟨v, v', hbefore, hretimed, hafter⟩ := hlanes lane hlane
  rw [hbefore.timing.1] at hretimed
  split at hretimed
  · next hrunning =>
    refine .inl ⟨hrunning, ?_⟩
    rw [hafter.timer, hretimed.timer, if_pos rfl, Timer.reverse, hbefore.timer]
  · have hself : v.Spares v' lane :=
      ⟨by rw [hretimed.frame], by rw [hretimed.durations, if_pos rfl]; rfl, by rw [hretimed.frame]⟩
    exact .inr ((hbefore.trans hself).trans hafter)

theorem launched {x : Float} (h : w.Steady manual) {lane : Lane} (hk : Kept .launch w w')
    (hl : w.Launched w' lane x) : w'.Steady manual := by
  refine h.of_kept hk rfl (fun q start hstart => ?_) ?_ (by rw [hl.frame])
  · rw [hl.timer] at hstart
    rw [hl.nowOf]
    split at hstart
    · cases hstart
      exact le_rfl
    · exact h.timely q start hstart
  · rw [hl.frame]
    exact h.faithful

theorem launch (h : w.Steady manual) :
    ∃ w', Gallery.launch.perform w = (.ok (), w') ∧ w'.Steady manual ∧
      w'.client.lanes = w.client.lanes ∧ ∀ lane ∈ w.client.lanes,
        (w'.timer lane.duration).pending = true ∧
          w.value lane.transition = .ok (w'.transitions.get lane.transition).start := by
  rw [Gallery.launch, perform_get_bind]
  have hduration := h.tidy.wired.duration
  have hstep : ∀ lane ∈ w.client.lanes, ∀ v, v.Steady manual ∧ v.client.lanes = w.client.lanes →
      ∃ v', (launchLane lane).perform v = (.ok (), v') ∧
        (v'.Steady manual ∧ v'.client.lanes = w.client.lanes) ∧
        (∃ x, v.value lane.transition = .ok x ∧ v.Launched v' lane x) ∧
        ∀ other ∈ w.client.lanes, lane.duration ≠ other.duration → v.Spares v' other := by
    intro lane hlane v hv
    obtain ⟨x, hx⟩ := hv.1.exists_value (hv.2 ▸ hlane)
    obtain ⟨v', hrun, hlaunched⟩ := launched_launchLane hx
    have hkept := Kept.launchLane hv.1.tidy (hv.2 ▸ hlane)
    rw [hrun] at hkept
    refine ⟨v', hrun, ⟨hv.1.launched hkept hlaunched, hkept.lanes.trans hv.2⟩, ⟨x, hx, hlaunched⟩,
      fun other hother hne => hlaunched.spares hne fun heq => hne ?_⟩
    rw [← hduration lane hlane, heq, hduration other hother]
  obtain ⟨w', hrun, hw', hlanes⟩ := forM_lanes h.tidy.wired.apart hstep ⟨h, rfl⟩
  refine ⟨w', hrun, hw'.1, hw'.2, fun lane hlane => ?_⟩
  obtain ⟨v, v', hbefore, ⟨x, hx, hlaunched⟩, hafter⟩ := hlanes lane hlane
  constructor
  · rw [hafter.timer, hlaunched.timer, if_pos rfl]
  · rw [hafter.transition, hlaunched.transitions, if_pos rfl, ← hx, hbefore.value (hduration lane hlane)]

theorem handled {ds : List (Ref Duration)} (h : w.Steady manual) (hh : w.Handled w' ds) :
    w'.Steady manual where
  tidy := hh.tidy h.tidy
  homely := hh.homely h.tidy h.homely
  orbs := by
    have horbs : w'.client.lanes.map Lane.orb = w.client.lanes.map Lane.orb := by
      rw [hh.client, counted, List.map_map]
      rfl
    rw [horbs]
    exact h.orbs
  timely d start hstart := by
    rw [hh.timer] at hstart
    have hnow : w'.nowOf d = w.nowOf d := by
      have hclock := congrArg Duration.clock (hh.durations d)
      exact hh.emits.nowOf (hclock.trans (by split <;> rfl))
    rw [hnow]
    split at hstart <;> exact h.timely d start hstart
  faithful := hh.descriptions ▸ h.faithful
  clock := by
    rw [hh.client]
    exact h.clock

theorem tick (h : w.Steady manual) :
    ∃ w', Gallery.tick.perform w = (.ok (), w') ∧ w.Handled w' w.followed ∧ w'.Steady manual := by
  obtain ⟨r, w', hrun, hhandled, hok, herror⟩ := handled_tick h.tidy
  cases r with
  | error fault =>
    rcases herror fault rfl with ⟨d, hd, hprogress⟩ | ⟨b, hb, hforeign, -⟩
    · have := h.isOk_progress_followed hd
      rw [hprogress] at this
      cases this
    · rw [h.homely.home b hb] at hforeign
      cases hforeign
  | ok =>
    rw [(hok rfl).1, eraseDups_of_nodup (h.homely.nodup_followed h.tidy),
      List.filter_eq_self.mpr fun d hd => h.isOk_progress_followed hd] at hhandled
    exact ⟨w', hrun, hhandled, h.handled hhandled⟩

end Steady

end World

end Tween
