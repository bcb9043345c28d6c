import Tween.Proofs.Launching

namespace Tween

open Text Number

namespace Store

variable {α : Type} [Inhabited α] {s s' : Store α}

structure Grows (s s' : Store α) : Prop where
  next_le : s.next ≤ s'.next
  get : ∀ {r : Ref α}, r.index < s.next → s'.get r = s.get r

theorem Grows.refl (s : Store α) : s.Grows s :=
  ⟨Nat.le_refl _, fun _ => rfl⟩

theorem Grows.add (h : s.Grows s') (a : α) : s.Grows (s'.add a).2 :=
  ⟨h.next_le.trans (Nat.le_succ _), fun hr =>
    (s'.get_add_of_lt a (hr.trans_le h.next_le)).trans (h.get hr)⟩

end Store

namespace Description

def Named (d : Description) : Prop :=
  readEasing? (words d.easingName.toList) = some (d.easingName, d.easing)

def withRead (d : Description) (length : Option Int) : Description :=
  { d with length := length.getD d.length }

theorem withRead_withRead (d : Description) (length : Option Int) :
    (d.withRead length).withRead length = d.withRead length := by
  cases length <;> rfl

theorem Named.read?_withLength {d : Description} (h : d.Named) {length : Int}
    (hlength : 0 ≤ length) : read? (Gallery.withLength length d.easingName) =
      .ok ((lengthRead? length).map fun n => { d with length := n }) := by
  rw [Description.read?_withLength hlength, h]
  rfl

end Description

namespace World

open Gallery Act

variable {w w' : World Hall} {lane lane' : Lane}

/-- What lanes have in common that go abreast: the clock, the reading at which they were started, the
length, and the end that they go forward to. -/
structure Pace where
  clock : Clock
  start : Option Int
  length : Int
  goal : Float

structure Keeping (w : World Hall) (pace : Pace) (lane : Lane) : Prop where
  clock : (w.durations.get lane.duration).clock = pace.clock
  source : (w.durations.get lane.duration).source = .description lane.setting
  startedAt : (w.timer lane.duration).startedAt = pace.start
  forward : (w.timer lane.duration).reversed = false
  length : (w.descriptions.get lane.setting).value.length = pace.length
  named : (w.descriptions.get lane.setting).value.Named
  finish : (w.transitions.get lane.transition).finish = pace.goal

structure Abreast (w : World Hall) (pace : Pace) : Prop where
  tidy : w.Tidy
  keeping : ∀ lane ∈ w.client.lanes, w.Keeping pace lane

namespace Keeping

variable {pace : Pace}

/-- Counts and pending completions do not matter, and a new length is the new pace. -/
theorem congr (h : w.Keeping pace lane) (read : Option Int)
    (hanimation : lane'.animation = lane.animation) (hsetting : lane'.setting = lane.setting)
    (hd : w.SameTiming w' lane.duration)
    (ht : w'.transitions.get lane.transition = w.transitions.get lane.transition)
    (hs : (w'.descriptions.get lane.setting).value =
      (w.descriptions.get lane.setting).value.withRead read) :
    w'.Keeping { pace with length := read.getD pace.length } lane' := by
  obtain ⟨pending, hd⟩ := hd
  refine ⟨?_, ?_, ?_, ?_, ?_, ?_, ?_⟩
  · rw [Lane.duration, hanimation, hd, ← h.clock]
  · rw [Lane.duration, hanimation, hsetting, hd, ← h.source]
  · rw [Lane.duration, hanimation, timer, hd, ← h.startedAt]
  · rw [Lane.duration, hanimation, timer, hd, ← h.forward]
  · rw [hsetting, hs, Description.withRead, h.length]
  · rw [hsetting, hs]
    exact h.named
  · rw [Lane.transition, hanimation, ht, h.finish]

theorem destination (h : w.Keeping pace lane) : w.destination lane = pace.goal := by
  rw [World.destination, ← h.finish, if_neg (by rw [h.forward]; exact Bool.false_ne_true)]

end Keeping

end World

namespace Gallery

open World Act

variable {w w' : World Hall} {pace : World.Pace}

/-- In `w'` the lanes of `w` have the same transitions, the same timing states up to pending
completions, and the same settings, but for a length that was read. -/
structure Still (read : Option Int) (w w' : World Hall) : Prop where
  timing : ∀ lane ∈ w.client.lanes, w.SameTiming w' lane.duration
  transition : ∀ lane ∈ w.client.lanes,
    w'.transitions.get lane.transition = w.transitions.get lane.transition
  description : ∀ lane ∈ w.client.lanes, (w'.descriptions.get lane.setting).value =
    (w.descriptions.get lane.setting).value.withRead read

theorem Still.of_eq {read : Option Int} (hdurations : w'.durations = w.durations)
    (htransitions : w'.transitions = w.transitions)
    (hs : ∀ lane ∈ w.client.lanes, (w'.descriptions.get lane.setting).value =
      (w.descriptions.get lane.setting).value.withRead read) : Still read w w' where
  timing lane _ := .of_eq (by rw [hdurations])
  transition lane _ := by rw [htransitions]
  description := hs

/-- In `w'` there may be more durations, transitions and settings than in `w`. -/
structure Grown (w w' : World Hall) : Prop where
  durations : w.durations.Grows w'.durations
  transitions : w.transitions.Grows w'.transitions
  descriptions : w.descriptions.Grows w'.descriptions
  client : w'.client = w.client

theorem Grown.refl (w : World Hall) : Grown w w :=
  ⟨.refl _, .refl _, .refl _, rfl⟩

theorem grown_bindForeign (w : World Hall) (foreign : Foreign) :
    Grown w ((bindForeign foreign).perform w).2 := by
  have hsource : ∀ gauge : Gauge, Keeps (Grown w) gauge.source := by
    intro gauge v hv
    cases gauge with
    | shared | length => exact ⟨hv.durations, hv.transitions, hv.descriptions, hv.client⟩
    | description s => exact ⟨hv.durations, hv.transitions, hv.descriptions.add s, hv.client⟩
  have htempo : ∀ tempo : Tempo, Keeps (Grown w) tempo.duration := by
    intro tempo
    cases tempo with
    | shared d => exact .pure d
    | own n => exact (hsource n.gauge).bind fun source => .get_bind fun v hv =>
        ⟨hv.durations.add _, hv.transitions, hv.descriptions, hv.client⟩
  have hcourse : ∀ course : Course, Keeps (Grown w) course.transition := by
    intro course
    cases course with
    | shared r => exact .pure r
    | own start finish tempo => exact (htempo tempo).bind fun d v hv =>
        ⟨hv.durations, hv.transitions.add _, hv.descriptions, hv.client⟩
  refine (hcourse foreign.course).bind (fun r => .get_bind fun v hv => ?_) w (.refl w)
  split
  · exact ⟨hv.durations, hv.transitions, hv.descriptions, hv.client⟩
  · exact hv

def lengthenLane (length : Int) (lane : Lane) : Act Hall Unit := do
  let easing := ((← get).descriptions.get lane.setting).value.easingName
  let _ ← configureLane lane (withLength length easing)

/-- The setting of the lane gets the length if that can be read, and then nothing is noted. -/
theorem exists_lengthenLane {length : Int} (hlength : 0 ≤ length)
    (hnamed : (w.descriptions.get lane.setting).value.Named) :
    ∃ v, (lengthenLane length lane).perform w = (.ok (), v) ∧
      v = { w with descriptions := v.descriptions, journal := v.journal } ∧
      ((Description.lengthRead? length).isSome = true → v.journal = w.journal) ∧
      ∀ r, (v.descriptions.get r).value = if r = lane.setting then
          (w.descriptions.get r).value.withRead (Description.lengthRead? length)
        else (w.descriptions.get r).value := by
  rw [lengthenLane, perform_get_bind]
  dsimp only
  rw [perform_bind_pure, configureLane, perform_setDescriptionText,
    hnamed.read?_withLength hlength]
  cases Description.lengthRead? length with
  | none => exact ⟨_, rfl, rfl, fun h => absurd h Bool.false_ne_true, fun r => (ite_self _).symm⟩
  | some n =>
    refine ⟨_, rfl, rfl, fun _ => rfl, fun r => ?_⟩
    dsimp only [Option.map_some]
    rw [Store.modify, Store.get_set]
    by_cases heq : lane.setting = r
    · subst heq
      rw [if_pos rfl, if_pos rfl]
      rfl
    · rw [if_neg heq, if_neg (Ne.symm heq)]

/-- By induction on the lanes, where a setting that two of them share gets the same length again. -/
theorem exists_forM_lengthenLane {length : Int} (hlength : 0 ≤ length) {lanes : List Lane}
    (hnamed : ∀ lane ∈ lanes, (w.descriptions.get lane.setting).value.Named) :
    ∃ v, (lanes.forM (lengthenLane length)).perform w = (.ok (), v) ∧
      v = { w with descriptions := v.descriptions, journal := v.journal } ∧
      ((Description.lengthRead? length).isSome = true → v.journal = w.journal) ∧
      ∀ r, (v.descriptions.get r).value = if r ∈ lanes.map Lane.setting then
          (w.descriptions.get r).value.withRead (Description.lengthRead? length)
        else (w.descriptions.get r).value := by
  induction lanes generalizing w with
  | nil => exact ⟨w, rfl, rfl, fun _ => rfl, fun _ => rfl⟩
  | cons a rest ih =>
    rw [List.forall_mem_cons] at hnamed
    obtain ⟨u, hfirst, hframe, hjournal, hget⟩ := exists_lengthenLane hlength hnamed.1
    have hstays : ∀ lane ∈ rest, (u.descriptions.get lane.setting).value.Named := by
      intro lane hlane
      rw [hget]
      split
      · exact hnamed.2 lane hlane
      · exact hnamed.2 lane hlane
    obtain ⟨v, hrest, hframe', hjournal', hget'⟩ := ih hstays
    refine ⟨v, ?_, ?_, fun hread => (hjournal' hread).trans (hjournal hread), fun r => ?_⟩
    · rw [List.forM_eq_forM, List.forM_cons, perform_bind_ok _ hfirst]
      exact hrest
    · rw [hframe', hframe]
    · rw [hget', hget]
      by_cases hr : r = a.setting
      · simp only [List.map_cons, List.mem_cons, hr, true_or, if_true,
          Description.withRead_withRead, ite_self]
      · simp only [List.map_cons, List.mem_cons, hr, false_or, if_false]

theorem named_of_ofText {title easing : String} {s : Setting Description}
    (hmem : (title, easing) ∈ laneEasings)
    (hs : Setting.ofText title (withLength defaultLength easing) = .ok s) : s.value.Named := by
  obtain ⟨-, -, heasing⟩ := value_of_ofText hmem hs
  obtain ⟨⟨name, curve⟩, hp⟩ := Option.isSome_iff_exists.mp heasing
  obtain ⟨rfl, rfl⟩ := Description.faithful_of_read? (Setting.read?_of_ofText hs) name curve hp
  exact hp

def waiting (clock : Clock) : World.Pace :=
  ⟨clock, none, defaultLength, leftEnd⟩

theorem keeping_nextLane (w : World Hall) {s : Setting Description} (c : Clock) (title : String)
    (hlength : s.value.length = defaultLength) (hnamed : s.value.Named) :
    (withLane w s c).Keeping (waiting c) (nextLane w title) := by
  have hduration : (withLane w s c).durations.get (nextLane w title).duration =
      ⟨.description ⟨w.descriptions.next⟩, .named .circle, c, {}⟩ := w.durations.get_add_self _
  have hsetting : (withLane w s c).descriptions.get (nextLane w title).setting = s :=
    w.descriptions.get_add_self s
  refine ⟨?_, ?_, ?_, ?_, ?_, ?_, ?_⟩
  · rw [hduration]
    rfl
  · rw [hduration]
    rfl
  · rw [timer, hduration]
    rfl
  · rw [timer, hduration]
  · rw [hsetting, hlength]
    rfl
  · rw [hsetting]
    exact hnamed
  · rw [transition_nextLane]
    rfl

theorem keeping_withLane {c : Clock} {lanes : List Lane} (hw : w.Wired lanes)
    (h : ∀ lane ∈ lanes, w.Keeping (waiting c) lane) {title easing : String} {s : Setting Description}
    (hmem : (title, easing) ∈ laneEasings)
    (hs : Setting.ofText title (Gallery.withLength defaultLength easing) = .ok s) :
    ∀ lane ∈ lanes ++ [nextLane w title], (withLane w s c).Keeping (waiting c) lane := by
  rw [List.forall_mem_append, List.forall_mem_singleton]
  refine ⟨fun lane hlane => ?_,
    keeping_nextLane w c title (value_of_ofText hmem hs).1 (named_of_ofText hmem hs)⟩
  obtain ⟨hduration, htransition, hsetting⟩ := hw.known lane hlane
  refine (h lane hlane).congr none rfl rfl (.of_eq ?_) ?_ ?_
  · exact w.durations.get_add_of_lt _ hduration
  · exact transition_withLane s c htransition
  · exact congrArg Setting.value (w.descriptions.get_add_of_lt s hsetting)

theorem exists_waiting_opened (clock : Option Int) :
    ∃ c, (opened clock).Abreast (waiting c) := by
  obtain ⟨v, lanes, c, heq, ⟨-, hkeeping⟩, -⟩ := opened_induction_on
    (P := fun c w lanes => Furnished w lanes ∧ ∀ lane ∈ lanes, w.Keeping (waiting c) lane) clock
    (fun c monotonic clocks => ⟨.nil monotonic clocks, List.forall_mem_nil _⟩)
    fun c v lanes title easing s hmem hs hv =>
      ⟨hv.1.withLane c hs, keeping_withLane hv.1.wired hv.2 hmem hs⟩
  refine ⟨c, (tidy_opened clock).1, ?_⟩
  rw [heq]
  intro lane hlane
  have hlane := hkeeping lane hlane
  exact ⟨hlane.clock, hlane.source, hlane.startedAt, hlane.forward, hlane.length, hlane.named,
    hlane.finish⟩

end Gallery

end Tween
