import Tween.Proofs.Steady

namespace Tween

namespace World

open Gallery Act

variable {manual : Bool} {w w' : World Hall} {lane : Lane}

/-- An orb is where its animation ends in its direction. -/
def Rests (w : World Hall) (lane : Lane) : Prop :=
  ∃ p, (w.easing lane.duration).eval (w.timer lane.duration).endpoint = .ok p ∧
    w.orbX lane = (w.transitions.get lane.transition).at p

/-- Whether a lane runs although its completion has been reported. -/
def adrift (w : World Hall) (lane : Lane) : Bool :=
  w.phase lane.duration = .running && !(w.timer lane.duration).pending

/-- The steady gallery, where an orb rests unless the completion of its lane is still ahead. -/
structure Landed (manual : Bool) (w : World Hall) : Prop where
  steady : w.Steady manual
  rests : ∀ lane ∈ w.client.lanes, (w.timer lane.duration).pending = false → w.Rests lane

theorem Rests.congr (h : w.Rests lane) (heasing : w'.easing lane.duration = w.easing lane.duration)
    (htimer : w'.timer lane.duration = w.timer lane.duration) (hx : w'.orbX lane = w.orbX lane)
    (ht : w'.transitions.get lane.transition = w.transitions.get lane.transition) :
    w'.Rests lane := by
  obtain ⟨p, hp, hat⟩ := h
  refine ⟨p, ?_, ?_⟩
  · rw [heasing, htimer, hp]
  · rw [hx, ht, hat]

theorem Rests.spared (h : w.Rests lane) (hs : w.Spares w' lane) : w'.Rests lane :=
  h.congr hs.timing.2.1 hs.timer hs.orbX hs.transition

/-- A lane that rests and is not running has the value at which its orb is. -/
theorem Rests.value_eq (h : w.Rests lane)
    (hd : (w.transitions.get lane.transition).duration = lane.duration)
    (hphase : w.phase lane.duration ≠ .running) :
    w.value lane.transition = .ok (w.orbX lane) := by
  obtain ⟨p, hp, hat⟩ := h
  rw [phase_ne_running_iff] at hphase
  have hprogress : w.progress lane.duration = .ok p := by rw [progress, if_pos hphase, hp]
  rw [value, hd, hprogress, hat]
  rfl

theorem Relengthed.easingOf (h : w.Relengthed w') (d : Ref Duration) : w'.easing d = w.easing d := by
  have hdurations : w'.durations = w.durations := by rw [h.frame]
  unfold World.easing
  rw [hdurations]
  split
  · exact h.easing _
  · rfl

namespace Handled

variable {ds : List (Ref Duration)}

theorem easing (h : w.Handled w' ds) (q : Ref Duration) : w'.easing q = w.easing q := by
  have hsource : (w'.durations.get q).source = (w.durations.get q).source := by
    rw [h.durations]
    split <;> rfl
  unfold World.easing
  rw [hsource, h.descriptions, h.smoothing]

theorem value (h : w.Handled w' ds) (r : Ref Transition) : w'.value r = w.value r := by
  rw [World.value, h.transitions, h.progress, World.value]

end Handled

/-- The binding of a lane writes the place of its orb, and no other binding does. -/
theorem Steady.stroke_iff (h : w.Steady manual) (hlane : lane ∈ w.client.lanes) {b : Ref Binding}
    (hb : b ∈ w.members) (p : Float) :
    ((w.stroke b p).1 = lane.orb ↔ w.durationOf b = lane.duration) ∧ (w.stroke b p).2.1 = place ∧
      (w.durationOf b = lane.duration →
        (w.stroke b p).2.2 = (w.transitions.get lane.transition).at p) := by
  obtain ⟨own, hown, hbinding, hduration⟩ := h.homely.exists_lane h.tidy hb
  rw [stroke, hbinding, hduration]
  have hsame : own.duration = lane.duration → own = lane :=
    h.tidy.wired.eq_of_duration hown hlane
  refine ⟨⟨fun horb => ?_, fun heq => ?_⟩, rfl, fun heq => ?_⟩
  · rw [List.inj_on_of_nodup_map h.orbs hown hlane horb]
  · rw [hsame heq]
    rfl
  · rw [hsame heq]
    rfl

theorem mem_flatMap_listedOf {b : Ref Binding} :
    b ∈ w.followed.flatMap (w.listedOf w.client.system) ↔ b ∈ w.members := by
  rw [List.mem_flatMap]
  constructor
  · rintro ⟨d, -, hb⟩
    exact (List.mem_filter.mp hb).1
  · intro hb
    exact ⟨w.durationOf b, List.mem_map_of_mem hb, List.mem_filter.mpr ⟨hb, decide_eq_true rfl⟩⟩

/-- An update moves an orb if its lane is followed, to the value of its transition. -/
theorem orbX_handled (h : w.Steady manual) (hh : w.Handled w' w.followed)
    (hlane : lane ∈ w.client.lanes) :
    w'.orbX lane =
      if lane.duration ∈ w.followed then
        (w.transitions.get lane.transition).at (w.reading lane.duration)
      else w.orbX lane := by
  have hpaint : w'.targets = paint w.targets _ := hh.emits.targets
  rw [orbX, hpaint]
  rcases lookup_paint w.targets _ lane.orb place with ⟨s, hs, horb, -, hlookup⟩ | ⟨hnone, hlookup⟩
  · -- The last write to the orb is that of its own binding.
    obtain ⟨b, hb, rfl⟩ := List.mem_map.mp hs
    rw [mem_flatMap_listedOf] at hb
    obtain ⟨howner, -, hvalue⟩ := h.stroke_iff hlane hb (w.reading (w.durationOf b))
    have hd : w.durationOf b = lane.duration := howner.mp horb
    rw [hlookup, if_pos (hd ▸ List.mem_map_of_mem hb), Option.getD_some, hvalue hd, hd]
  · rw [hlookup, if_neg, orbX]
    intro hmem
    obtain ⟨b, hb, hd⟩ := List.mem_map.mp hmem
    obtain ⟨howner, hfield, -⟩ := h.stroke_iff hlane hb (w.reading (w.durationOf b))
    exact hnone _ (List.mem_map_of_mem (mem_flatMap_listedOf.mpr hb)) ⟨howner.mpr hd, hfield⟩

theorem orbX_of_pending (h : w.Steady manual) (hh : w.Handled w' w.followed)
    (hlane : lane ∈ w.client.lanes) (hpending : (w.timer lane.duration).pending = true) :
    w'.value lane.transition = .ok (w'.orbX lane) ∧
      ((w'.timer lane.duration).pending = false → w'.Rests lane) := by
  have hfollowed := (h.homely.mem_followed_iff h.tidy hlane).mpr hpending
  have hprogress : w.progress lane.duration = .ok (w.reading lane.duration) :=
    progress_eq_reading (h.isOk_progress hlane)
  have hx := orbX_handled h hh hlane
  rw [if_pos hfollowed] at hx
  refine ⟨?_, fun hdone => ⟨w.reading lane.duration, ?_, by rw [hx, hh.transitions]⟩⟩
  · rw [hh.value, value, h.tidy.wired.duration lane hlane, hprogress, hx]
    rfl
  · have hdue : w.due lane.duration = true := by
      by_contra hnot
      rw [hh.timer, if_neg fun hd => hnot hd.2, hpending] at hdone
      cases hdone
    have hfinished : w'.finished lane.duration = true := by
      rw [hh.finished, finished_of_due hdue]
    have := hh.progress lane.duration
    rwa [progress, if_pos hfinished, hprogress] at this

theorem rests_of_not_pending (h : w.Landed manual) (hh : w.Handled w' w.followed)
    (hlane : lane ∈ w.client.lanes) (hpending : (w.timer lane.duration).pending = false) :
    w'.Rests lane ∧ (w'.timer lane.duration).pending = false := by
  have hout : lane.duration ∉ w.followed := by
    rw [h.steady.homely.mem_followed_iff h.steady.tidy hlane, hpending]
    exact Bool.false_ne_true
  have htimer : w'.timer lane.duration = w.timer lane.duration := by
    rw [hh.timer, if_neg fun hd => hout hd.1]
  have hx := orbX_handled h.steady hh hlane
  rw [if_neg hout] at hx
  refine ⟨(h.rests lane hlane hpending).congr (hh.easing _) htimer hx ?_, by rw [htimer, hpending]⟩
  rw [hh.transitions]

/-- After an update every orb is where its animation is, unless its lane is adrift. -/
theorem Landed.handled (h : w.Landed manual) (hh : w.Handled w' w.followed) :
    w'.Landed manual ∧ ∀ lane ∈ w'.client.lanes,
      w'.adrift lane = false → w'.value lane.transition = .ok (w'.orbX lane) := by
  have hsteady := h.steady.handled hh
  have hboth : ∀ lane ∈ w.client.lanes,
      ((w'.timer lane.duration).pending = false → w'.Rests lane) ∧
        (w'.adrift lane = false → w'.value lane.transition = .ok (w'.orbX lane)) := by
    intro lane hlane
    cases hpending : (w.timer lane.duration).pending with
    | true =>
      obtain ⟨hvalue, hrests⟩ := orbX_of_pending h.steady hh hlane hpending
      exact ⟨hrests, fun _ => hvalue⟩
    | false =>
      obtain ⟨hrests, hdone⟩ := rests_of_not_pending h hh hlane hpending
      refine ⟨fun _ => hrests, fun hadrift => hrests.value_eq ?_ ?_⟩
      · rw [hh.transitions]
        exact h.steady.tidy.wired.duration lane hlane
      · intro hrunning
        rw [adrift, hdone, hrunning] at hadrift
        cases hadrift
  -- Counting completions changes neither the animation of a lane nor its orb.
  have hlanes : w'.client.lanes = w.counted w.followed := by rw [hh.client]
  rw [hlanes]
  refine ⟨⟨hsteady, fun lane hlane => ?_⟩, fun lane hlane => ?_⟩
  · rw [hlanes] at hlane
    obtain ⟨base, hbase, rfl⟩ := List.mem_map.mp hlane
    exact (hboth base hbase).1
  · obtain ⟨base, hbase, rfl⟩ := List.mem_map.mp hlane
    exact (hboth base hbase).2

namespace Landed

theorem setLength (h : w.Landed manual) (length : Int) :
    ((Gallery.setLength length).perform w).2.Landed manual := by
  have hsteady := h.steady.setLength length
  have hnew := relengthed_setLength h.steady.faithful length
  generalize ((Gallery.setLength length).perform w).2 = v at hsteady hnew
  have hlanes : v.client.lanes = w.client.lanes := by rw [hnew.frame]
  have htimer : ∀ d, v.timer d = w.timer d := by
    intro d
    rw [hnew.frame]
    rfl
  refine ⟨hsteady, fun lane hlane hpending => ?_⟩
  rw [hlanes] at hlane
  rw [htimer] at hpending
  refine (h.rests lane hlane hpending).congr (hnew.easingOf _) (htimer _) ?_ (by rw [hnew.frame])
  rw [hnew.frame]
  rfl

theorem advanceClock (h : w.Landed manual) {ms : Int} (hms : manual = true ∨ 0 ≤ ms) :
    ((Gallery.advanceClock ms).perform w).2.Landed manual := by
  have hsteady := h.steady.advanceClock hms
  obtain ⟨r, v, hrun, hframe, -, -⟩ := advanceClock_forward h.steady.clock hms
  rw [hrun] at hsteady ⊢
  have hlanes : v.client.lanes = w.client.lanes := by rw [hframe]
  have htimer : ∀ d, v.timer d = w.timer d := by
    intro d
    rw [hframe]
    rfl
  refine ⟨hsteady, fun lane hlane hpending => ?_⟩
  rw [hlanes] at hlane
  rw [htimer] at hpending
  refine (h.rests lane hlane hpending).congr ?_ (htimer _) ?_ (by rw [hframe])
  · rw [hframe]
    rfl
  · rw [hframe]
    rfl

theorem launch (h : w.Steady manual) : (Gallery.launch.perform w).2.Landed manual := by
  obtain ⟨w', hrun, hsteady, hlanes, hlaunched⟩ := h.launch
  rw [hrun]
  refine ⟨hsteady, fun lane hlane hpending => ?_⟩
  rw [hlanes] at hlane
  rw [(hlaunched lane hlane).1] at hpending
  cases hpending

theorem reverseAll (h : w.Landed manual) (hadrift : ∀ lane ∈ w.client.lanes, w.adrift lane = false) :
    (Gallery.reverseAll.perform w).2.Landed manual := by
  obtain ⟨w', hrun, hsteady, hlanes, hturned⟩ := h.steady.reverseAll
  rw [hrun]
  refine ⟨hsteady, fun lane hlane hpending => ?_⟩
  rw [hlanes] at hlane
  rcases hturned lane hlane with ⟨hrunning, hsame⟩ | hspares
  · have := hadrift lane hlane
    rw [hsame] at hpending
    rw [adrift, hrunning, hpending] at this
    cases this
  · rw [hspares.timer] at hpending
    exact (h.rests lane hlane hpending).spared hspares

end Landed

end World

namespace Gallery

open World Act

/-- Whether an easing ends where something that is to stay at the left end stays there. -/
def staysLeft (e : Easing) : Bool :=
  match e.eval 1.0 with
  | .ok p => Transition.at ⟨⟨0⟩, leftEnd, leftEnd⟩ p = leftEnd
  | .error _ => false

theorem staysLeft_of_opensLane {e : Easing} (h : opensLane e = true) : staysLeft e = true :=
  of_opensLane (P := fun e => staysLeft e = true) h (fun c => by cases c <;> decide +kernel)
    (by decide +kernel)

/-- The lanes of a gallery that is being set up: their orbs are at the left end, to which their
animations go. -/
structure Poised (w : World Hall) (lanes : List Lane) : Prop where
  orbs : (lanes.map Lane.orb).Nodup
  known : ∀ lane ∈ lanes, lane.orb.index < w.targets.next
  left : ∀ lane ∈ lanes, w.orbX lane = leftEnd ∧ w.transitions.get lane.transition =
    ⟨lane.duration, leftEnd, leftEnd⟩
  described : ∀ r, opensLane (w.descriptions.get r).value.easing = true
  faithful : ∀ r, (w.descriptions.get r).value.Faithful

namespace Poised

theorem nil (monotonic : Int) (clocks : Store ManualClock) :
    Poised { monotonic, clocks, client := {} } [] where
  orbs := List.nodup_nil
  known := List.forall_mem_nil _
  left := List.forall_mem_nil _
  described _ := rfl
  faithful _ := Description.faithful_of_names .none

theorem withLane {w : World Hall} {lanes : List Lane} (hw : w.Wired lanes) (h : Poised w lanes)
    {title easing : String} {s : Setting Description} (c : Clock)
    (hmem : (title, easing) ∈ laneEasings)
    (hs : Setting.ofText title (Gallery.withLength defaultLength easing) = .ok s) :
    Poised (Gallery.withLane w s c) (lanes ++ [nextLane w title]) := by
  have htargets : ∀ t : Ref Target, t ≠ ⟨w.targets.next⟩ →
      (Gallery.withLane w s c).targets.get t = w.targets.get t := by
    intro t ht
    change ((w.targets.add {}).2.set ⟨w.targets.next⟩ _).get t = _
    rw [Store.get_set_of_ne _ _ (Ne.symm ht), Store.get_add, if_neg ht]
  have hself : (Gallery.withLane w s c).targets.get ⟨w.targets.next⟩ = ⟨[(place, leftEnd)]⟩ :=
    Store.get_set_self _ _ _
  have hdescriptions : ∀ r, (Gallery.withLane w s c).descriptions.get r =
      if r = ⟨w.descriptions.next⟩ then s else w.descriptions.get r := w.descriptions.get_add s
  have hne : ∀ lane ∈ lanes, lane.orb ≠ ⟨w.targets.next⟩ := fun lane hlane =>
    Ref.ne_of_lt (h.known lane hlane)
  refine ⟨?_, ?_, ?_, fun r => ?_, fun r => ?_⟩
  · rw [List.map_append]
    refine h.orbs.append (List.nodup_singleton _) (List.disjoint_singleton.mpr fun horb => ?_)
    obtain ⟨lane, hlane, heq⟩ := List.mem_map.mp horb
    exact hne lane hlane heq
  · rw [List.forall_mem_append]
    refine ⟨fun lane hlane => Nat.lt_succ_of_lt (h.known lane hlane), fun lane hlane => ?_⟩
    obtain rfl := List.mem_singleton.mp hlane
    exact Nat.lt_succ_self _
  · rw [List.forall_mem_append]
    refine ⟨fun lane hlane => ?_, fun lane hlane => ?_⟩
    · rw [transition_withLane _ _ (hw.known lane hlane).2.1, orbX, htargets _ (hne lane hlane)]
      exact h.left lane hlane
    · obtain rfl := List.mem_singleton.mp hlane
      refine ⟨?_, transition_nextLane w s c title⟩
      rw [orbX, show (nextLane w title).orb = ⟨w.targets.next⟩ from rfl, hself]
      rfl
  · rw [hdescriptions]
    split
    · exact (value_of_ofText hmem hs).2.1
    · exact h.described r
  · rw [hdescriptions]
    split
    · exact Description.faithful_of_read? (Setting.read?_of_ofText hs)
    · exact h.faithful r

end Poised

theorem exists_poised_opened (clock : Option Int) :
    ∃ v lanes c, opened clock = { v with
      systems := (v.systems.add { policy := .ignore }).2
      client := { lanes, system := ⟨v.systems.next⟩, clock := c } } ∧
      (Furnished v lanes ∧ Poised v lanes) ∧ (clock.isSome = true → ∃ r, c = .manual r) :=
  opened_induction (P := fun w lanes => Furnished w lanes ∧ Poised w lanes) clock
    (fun monotonic clocks => ⟨.nil monotonic clocks, .nil monotonic clocks⟩)
    fun _ _ _ _ _ c hmem hs hv => ⟨hv.1.withLane c hs, hv.2.withLane hv.1.wired c hmem hs⟩

theorem landed_opened (clock : Option Int) : (opened clock).Landed clock.isSome := by
  obtain ⟨htidy, hhomely, -⟩ := tidy_opened clock
  obtain ⟨v, lanes, c, heq, ⟨hv, hpoised⟩, hclock⟩ := exists_poised_opened clock
  have htimer : ∀ d, (opened clock).timer d = {} := by
    rw [heq]
    exact hv.timer
  have hsteady : (opened clock).Steady clock.isSome := by
    refine ⟨htidy, hhomely, ?_, fun d start hstart => ?_, ?_, ?_⟩
    · rw [heq]
      exact hpoised.orbs
    · rw [htimer] at hstart
      cases hstart
    · rw [heq]
      exact hpoised.faithful
    · rw [heq]
      exact hclock
  refine ⟨hsteady, fun lane hlane _ => ?_⟩
  -- A lane that has not been started is at the end of its direction, where it stays left.
  have hends : staysLeft ((opened clock).easing lane.duration) = true := by
    unfold easing
    rw [htidy.wired.source lane hlane, heq]
    exact staysLeft_of_opensLane (hpoised.described _)
  rw [heq] at hlane
  obtain ⟨hx, hat⟩ := hpoised.left lane hlane
  have hx' : (opened clock).orbX lane = leftEnd := by
    rw [heq]
    exact hx
  have hat' : (opened clock).transitions.get lane.transition = ⟨lane.duration, leftEnd, leftEnd⟩ := by
    rw [heq]
    exact hat
  unfold staysLeft at hends
  split at hends
  · next p hp =>
    refine ⟨p, ?_, ?_⟩
    · rw [htimer]
      exact hp
    · rw [hx', hat']
      exact (of_decide_eq_true hends).symm
  · cases hends

/-- Whether a move is one of the gallery's own, and does not set the clock back, which a manual
clock refuses. -/
def Move.isOwn (manual : Bool) : Move → Bool
  | .launch | .reverse | .setLength _ => true
  | .advance ms | .tick ms => manual || decide (0 ≤ ms)
  | _ => false

variable {manual : Bool} {w : World Hall}

theorem move_of_make {m : Move} (act : Act Hall Unit)
    (h : make m = (act >>= fun _ => pure Reply.done)) (w : World Hall) :
    move w m = ((act.perform w).1.map fun _ => .done, (act.perform w).2) := by
  rw [move, h, perform_bind_pure]

theorem move_tick (h : w.Steady manual) {ms : Int} (hms : manual = true ∨ 0 ≤ ms) :
    ((move w (.tick ms)).2 = ((advanceClock ms).perform w).2 ∧ ms < 0) ∨
      ∃ w', move w (.tick ms) = (.ok .done, w') ∧
        ((advanceClock ms).perform w).2.Handled w' ((advanceClock ms).perform w).2.followed := by
  have hsteady := h.advanceClock hms
  obtain ⟨r, v, hrun, -, -, hok⟩ := advanceClock_forward h.clock hms
  have hmove : move w (.tick ms) =
      (advanceClock ms >>= fun _ => tick >>= fun _ => pure Reply.done).perform w := rfl
  rw [hrun] at hsteady ⊢
  rw [hmove, perform_bind, hrun]
  cases r with
  | error fault =>
    refine .inl ⟨rfl, not_le.mp fun hpos => ?_⟩
    cases hok hpos
  | ok =>
    obtain ⟨w', htick, hhandled, -⟩ := hsteady.tick
    refine .inr ⟨w', ?_, hhandled⟩
    dsimp only
    rw [perform_bind_pure, htick]
    rfl

theorem steady_move (h : w.Steady manual) {m : Move} (hm : m.isOwn manual = true) :
    (move w m).2.Steady manual := by
  cases m with
  | launch =>
    obtain ⟨w', hrun, hsteady, -⟩ := h.launch
    rw [move_of_make launch rfl, hrun]
    exact hsteady
  | reverse =>
    obtain ⟨w', hrun, hsteady, -⟩ := h.reverseAll
    rw [move_of_make reverseAll rfl, hrun]
    exact hsteady
  | setLength length =>
    rw [move_of_make (setLength length) rfl]
    exact h.setLength length
  | advance ms =>
    rw [move_of_make (advanceClock ms) rfl]
    exact h.advanceClock (by simpa [Move.isOwn] using hm)
  | tick ms =>
    have hms : manual = true ∨ 0 ≤ ms := by simpa [Move.isOwn] using hm
    rcases move_tick h hms with ⟨hmove, -⟩ | ⟨w', hmove, hhandled⟩
    · rw [hmove]
      exact h.advanceClock hms
    · rw [hmove]
      exact (h.advanceClock hms).handled hhandled
  | _ => cases hm

/-- Orbs stay at rest through every move, as long as no lane is turned around that is adrift. -/
theorem landed_move (h : w.Landed manual) {m : Move} (hm : m.isOwn manual = true)
    (hadrift : m = .reverse → ∀ lane ∈ w.client.lanes, w.adrift lane = false) :
    (move w m).2.Landed manual := by
  cases m with
  | launch =>
    rw [move_of_make launch rfl]
    exact .launch h.steady
  | reverse =>
    rw [move_of_make reverseAll rfl]
    exact h.reverseAll (hadrift rfl)
  | setLength length =>
    rw [move_of_make (setLength length) rfl]
    exact h.setLength length
  | advance ms =>
    rw [move_of_make (advanceClock ms) rfl]
    exact h.advanceClock (by simpa [Move.isOwn] using hm)
  | tick ms =>
    have hms : manual = true ∨ 0 ≤ ms := by simpa [Move.isOwn] using hm
    rcases move_tick h.steady hms with ⟨hmove, -⟩ | ⟨w', hmove, hhandled⟩
    · rw [hmove]
      exact h.advanceClock hms
    · rw [hmove]
      exact ((h.advanceClock hms).handled hhandled).1
  | _ => cases hm

theorem moves_append (w : World Hall) (front rest : List Move) :
    moves w (front ++ rest) = moves (moves w front) rest :=
  List.foldl_append

theorem steady_moves (h : w.Steady manual) {ms : List Move}
    (hms : ∀ m ∈ ms, m.isOwn manual = true) : (moves w ms).Steady manual :=
  moves_keep (P := Steady manual) (fun m hm _ hv => steady_move hv (hms m hm)) h

theorem landed_moves (h : w.Landed manual) {ms : List Move}
    (hms : ∀ m ∈ ms, m.isOwn manual = true)
    (hadrift : ∀ front rest, ms = front ++ .reverse :: rest →
      ∀ lane ∈ (moves w front).client.lanes, (moves w front).adrift lane = false) :
    (moves w ms).Landed manual := by
  refine moves_induction (P := fun _ v => v.Landed manual) h fun past m rest heq hpast => ?_
  have hm := hms m (heq ▸ List.mem_append_right past List.mem_cons_self)
  exact landed_move hpast hm fun hm => hadrift past rest (hm ▸ heq)

theorem landed_of_launch {clock : Option Int} {past : List Move}
    (hms : ∀ m ∈ past, m.isOwn clock.isSome = true)
    (hpast : past = [] ∨ past.getLast? = some .launch) :
    (moves (opened clock) past).Landed clock.isSome := by
  have hopened := landed_opened clock
  rcases hpast with rfl | hlaunch
  · exact hopened
  · obtain ⟨front, rfl⟩ := List.getLast?_eq_some_iff.mp hlaunch
    rw [List.forall_mem_append] at hms
    rw [moves_append]
    have := Landed.launch (steady_moves hopened.steady hms.1)
    rwa [show moves (moves (opened clock) front) [.launch] =
      (move (moves (opened clock) front) .launch).2 from rfl, move_of_make launch rfl]

/-- After an update every orb is where its animation is, and a launch sends it from there, unless
its lane is adrift, as long as no lane has been turned around while it was adrift. -/
theorem orbs_drawn_after_tick (clock : Option Int) (past recent : List Move)
    (hms : ∀ m ∈ past ++ recent, m.isOwn clock.isSome = true)
    (hpast : past = [] ∨ past.getLast? = some .launch)
    (hturned : ∀ front rest, recent = front ++ .reverse :: rest →
      let v := moves (opened clock) (past ++ front)
      ∀ lane ∈ v.client.lanes, v.adrift lane = false)
    (elapsed : Int) (helapsed : 0 ≤ elapsed) :
    let updated := move (moves (opened clock) (past ++ recent)) (.tick elapsed)
    let w := updated.2
    let relaunched := move w .launch
    updated.1 = .ok .done ∧ relaunched.1 = .ok .done ∧ ∀ lane ∈ w.client.lanes,
      (w.adrift lane = false → w.value lane.transition = .ok (w.orbX lane) ∧
        (relaunched.2.transitions.get lane.transition).start = w.orbX lane) ∧
      (w.adrift lane = true → w.Rests lane) := by
  intro updated w relaunched
  rw [List.forall_mem_append] at hms
  have hlanded : (moves (opened clock) (past ++ recent)).Landed clock.isSome := by
    rw [moves_append]
    apply landed_moves (landed_of_launch hms.1 hpast) hms.2
    intro front rest heq
    rw [← moves_append]
    exact hturned front rest heq
  obtain ⟨w', hmove, hhandled⟩ :=
    (move_tick hlanded.steady (.inr helapsed)).resolve_left fun h => by omega
  obtain ⟨hlanded', hdrawn⟩ := (hlanded.advanceClock (.inr helapsed)).handled hhandled
  have hw : w = w' := congrArg Prod.snd hmove
  obtain ⟨v, hlaunch, -, -, hsent⟩ := hlanded'.steady.launch
  have hrelaunched : relaunched = (.ok .done, v) := by
    change move w .launch = _
    rw [move_of_make launch rfl, hw, hlaunch]
    rfl
  refine ⟨congrArg Prod.fst hmove, congrArg Prod.fst hrelaunched, fun lane hlane => ?_⟩
  rw [hw] at hlane ⊢
  refine ⟨fun hadrift => ?_, fun hadrift => hlanded'.rests lane hlane ?_⟩
  · have hvalue := hdrawn lane hlane hadrift
    refine ⟨hvalue, ?_⟩
    have hstart := (hsent lane hlane).2
    rw [hvalue] at hstart
    rw [hrelaunched]
    exact (Except.ok.inj hstart).symm
  · rw [adrift, Bool.and_eq_true, Bool.not_eq_true'] at hadrift
    exact hadrift.2

def turned : World Hall :=
  moves (opened (some 0)) ([.launch] ++ [.tick 400, .reverse])

/-- After the next update, all orbs are drawn where a launch sends them from. -/
theorem orbs_drawn_after_tick_turned :
    let w := (move turned (.tick 100)).2
    ∀ lane ∈ w.client.lanes, w.value lane.transition = .ok (w.orbX lane) ∧
      ((move w .launch).2.transitions.get lane.transition).start = w.orbX lane := by
  have hturned : ∀ front rest, ([.tick 400, .reverse] : List Move) = front ++ .reverse :: rest →
      let v := moves (opened (some 0)) ([.launch] ++ front)
      ∀ lane ∈ v.client.lanes, v.adrift lane = false := by
    intro front rest heq
    match front with
    | [] => cases heq
    | [m] =>
      cases heq
      decide +kernel
    | m :: n :: front => simp at heq
  have hdrawn := orbs_drawn_after_tick (some 0) [.launch] [.tick 400, .reverse] (by decide)
    (.inr rfl) hturned 100 (by decide)
  rw [← turned] at hdrawn
  have hadrift : ∀ lane ∈ (move turned (.tick 100)).2.client.lanes,
      (move turned (.tick 100)).2.adrift lane = false := by
    decide +kernel
  generalize move turned (.tick 100) = updated at hdrawn hadrift ⊢
  exact fun lane hlane => (hdrawn.2.2 lane hlane).1 (hadrift lane hlane)

/-- Once all lanes have arrived, a longer length sets them adrift: after the next update no orb is
where its animation is, and a launch lets every one of them jump. -/
theorem orbs_jump_after_setLength :
    let w := moves (opened (some 0)) [.launch, .tick 800, .setLength 3000, .tick 0]
    let w' := (move w .launch).2
    w.client.lanes.map w.orbX = [rightEnd, rightEnd, rightEnd, rightEnd, rightEnd] ∧
      (∀ lane ∈ w.client.lanes, w.value lane.transition ≠ .ok (w.orbX lane)) ∧
      ∀ lane ∈ w.client.lanes, (w'.transitions.get lane.transition).start ≠ w.orbX lane := by
  decide +kernel

end Gallery

end Tween
