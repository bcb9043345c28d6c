import Tween.Proofs.Lanes

namespace Tween

namespace Gallery

open World Act
open Text (words)

def nextLane (w : World Hall) (title : String) : Lane where
  title
  setting := ⟨w.descriptions.next⟩
  animation := ⟨⟨w.durations.next⟩, ⟨w.transitions.next⟩⟩
  orb := ⟨w.targets.next⟩

def withLane (w : World Hall) (setting : Setting Description) (clock : Clock) : World Hall :=
  { w with
    descriptions := (w.descriptions.add setting).2
    durations := (w.durations.add
      ⟨.description ⟨w.descriptions.next⟩, .named .circle, clock, {}⟩).2
    transitions := (w.transitions.add ⟨⟨w.durations.next⟩, 0.0, 0.0⟩).2.modify
      ⟨w.transitions.next⟩ fun t => { t with start := leftEnd, finish := leftEnd }
    targets := (w.targets.add {}).2.set ⟨w.targets.next⟩ ⟨[(place, leftEnd)]⟩ }

theorem transition_withLane {w : World Hall} (s : Setting Description) (c : Clock)
    {r : Ref Transition} (hr : r.index < w.transitions.next) :
    (withLane w s c).transitions.get r = w.transitions.get r := by
  change ((Store.add _ _).2.set ⟨w.transitions.next⟩ _).get r = _
  rw [Store.get_set_of_ne _ _ (Ref.ne_of_lt hr).symm, Store.get_add_of_lt _ _ hr]

theorem transition_nextLane (w : World Hall) (s : Setting Description) (c : Clock) (title : String) :
    (withLane w s c).transitions.get (nextLane w title).transition =
      ⟨⟨w.durations.next⟩, leftEnd, leftEnd⟩ := by
  change (Store.set _ ⟨w.transitions.next⟩ _).get ⟨w.transitions.next⟩ = _
  rw [Store.get_set_self, Store.get_add_self]

theorem perform_openLane {length : Int} {clock : Clock} {title easing : String}
    {s : Setting Description} (h : Setting.ofText title (withLength length easing) = .ok s)
    (w : World Hall) :
    (openLane length clock title easing).perform w =
      (.ok (nextLane w title), withLane w s clock) := by
  rw [openLane, perform_bind, perform_query, h]
  rfl

def opensLane : Easing → Bool
  | .named _ => true
  | .bezier c => c = Bezier.ease
  | .function .. => false

theorem of_opensLane {P : Easing → Prop} {e : Easing} (h : opensLane e = true)
    (hcurve : ∀ c, P (.named c)) (hease : P (.bezier .ease)) : P e := by
  cases e with
  | named c => exact hcurve c
  | bezier c =>
    obtain rfl := of_decide_eq_true h
    exact hease
  | function => cases h

/-- The settings of all lanes can be read: they have one length, and easings that go by their
names. -/
theorem ofText_laneEasings : ∀ p ∈ laneEasings,
    (Setting.ofText p.1 (withLength defaultLength p.2)).toOption.any (fun s =>
      s.value.length = defaultLength && opensLane s.value.easing &&
        (Description.readEasing? (words s.value.easingName.toList)).isSome) = true := by
  decide +kernel

theorem exists_ofText {p : String × String} (hmem : p ∈ laneEasings) :
    ∃ s, Setting.ofText p.1 (withLength defaultLength p.2) = .ok s := by
  have hread := ofText_laneEasings p hmem
  cases hs : Setting.ofText p.1 (withLength defaultLength p.2) with
  | error fault =>
    rw [hs] at hread
    cases hread
  | ok s => exact ⟨s, rfl⟩

theorem value_of_ofText {title easing : String} {s : Setting Description}
    (hmem : (title, easing) ∈ laneEasings)
    (hs : Setting.ofText title (withLength defaultLength easing) = .ok s) :
    s.value.length = defaultLength ∧ opensLane s.value.easing = true ∧
      (Description.readEasing? (words s.value.easingName.toList)).isSome = true := by
  have hread := ofText_laneEasings _ hmem
  rw [hs] at hread
  change (decide _ && _ && _) = true at hread
  rw [Bool.and_eq_true, Bool.and_eq_true, decide_eq_true_iff] at hread
  exact ⟨hread.1.1, hread.1.2, hread.2⟩

/-- What holds of no lanes and of one more, holds of the lanes of a new gallery. -/
theorem perform_openHall {P : World Hall → List Lane → Prop} (clock : Clock) {w : World Hall}
    (hnone : P w [])
    (hmore : ∀ v lanes title easing s, (title, easing) ∈ laneEasings →
      Setting.ofText title (withLength defaultLength easing) = .ok s → P v lanes →
      P (withLane v s clock) (lanes ++ [nextLane v title])) :
    ∃ v lanes, (openHall clock).perform w = (.ok (), { v with
      systems := (v.systems.add { policy := .ignore }).2
      client := { lanes, system := ⟨v.systems.next⟩, clock } }) ∧ P v lanes := by
  -- Lanes are opened after those that are there, so the induction is on those to come.
  have hopen : ∀ (ps : List (String × String)), (∀ p ∈ ps, p ∈ laneEasings) → ∀ v front,
      P v front → ∃ v' lanes, (ps.mapM fun (title, easing) =>
        openLane defaultLength clock title easing).perform v = (.ok lanes, v') ∧
        P v' (front ++ lanes) := by
    intro ps
    induction ps with
    | nil => exact fun _ v front hv => ⟨v, [], rfl, by rwa [List.append_nil]⟩
    | cons p rest ih =>
      intro hps v front hv
      rw [List.forall_mem_cons] at hps
      obtain ⟨s, hs⟩ := exists_ofText hps.1
      obtain ⟨v', lanes, hrest, hv'⟩ := ih hps.2 _ _ (hmore v front p.1 p.2 s hps.1 hs hv)
      refine ⟨v', nextLane v p.1 :: lanes, ?_, by rwa [List.append_assoc] at hv'⟩
      rw [List.mapM_cons, perform_bind_ok _ (perform_openLane hs v), perform_bind_ok _ hrest]
      rfl
  obtain ⟨v, lanes, hlanes, hv⟩ := hopen laneEasings (fun _ h => h) w [] hnone
  refine ⟨v, lanes, ?_, hv⟩
  rw [openHall, perform_bind_ok _ hlanes]
  rfl

/-- A new gallery, on a clock of its own that starts at a reading, or on the machine's. -/
def opened : Option Int → World Hall
  | some start => onManualClock start
  | none => onSystemClock

/-- What holds of no lanes, and of one more on the same clock, holds of the lanes of a new gallery. -/
theorem opened_induction_on {P : Clock → World Hall → List Lane → Prop} (clock : Option Int)
    (hnone : ∀ c monotonic clocks, P c { monotonic, clocks, client := {} } [])
    (hmore : ∀ c v lanes title easing s, (title, easing) ∈ laneEasings →
      Setting.ofText title (withLength defaultLength easing) = .ok s → P c v lanes →
      P c (withLane v s c) (lanes ++ [nextLane v title])) :
    ∃ v lanes c, opened clock = { v with
      systems := (v.systems.add { policy := .ignore }).2
      client := { lanes, system := ⟨v.systems.next⟩, clock := c } } ∧ P c v lanes ∧
      (clock.isSome = true → ∃ r, c = .manual r) := by
  have hopen : ∀ c monotonic clocks, ∃ v lanes,
      ((openHall c).perform { monotonic, clocks, client := {} }).2 = { v with
        systems := (v.systems.add { policy := .ignore }).2
        client := { lanes, system := ⟨v.systems.next⟩, clock := c } } ∧ P c v lanes := by
    intro c monotonic clocks
    obtain ⟨v, lanes, hperform, hv⟩ := perform_openHall c (hnone c monotonic clocks) (hmore c)
    exact ⟨v, lanes, congrArg Prod.snd hperform, hv⟩
  cases clock with
  | none =>
    obtain ⟨v, lanes, hv⟩ := hopen .system 0 {}
    rw [opened, onSystemClock]
    exact ⟨v, lanes, .system, hv.1, hv.2, fun h => absurd h Bool.false_ne_true⟩
  | some start =>
    have hclock : (newClock start).perform { client := ({} : Hall) } =
        (.ok ⟨0⟩, { clocks := (({} : Store ManualClock).add ⟨start⟩).2, client := {} }) := rfl
    obtain ⟨v, lanes, hv⟩ := hopen (.manual ⟨0⟩) 0 (({} : Store ManualClock).add ⟨start⟩).2
    rw [opened, onManualClock, perform_bind_ok _ hclock]
    exact ⟨v, lanes, .manual ⟨0⟩, hv.1, hv.2, fun _ => ⟨⟨0⟩, rfl⟩⟩

/-- What holds of no lanes, and of one more, holds of the lanes of a new gallery. -/
theorem opened_induction {P : World Hall → List Lane → Prop} (clock : Option Int)
    (hnone : ∀ monotonic clocks, P { monotonic, clocks, client := {} } [])
    (hmore : ∀ v lanes title easing s c, (title, easing) ∈ laneEasings →
      Setting.ofText title (withLength defaultLength easing) = .ok s → P v lanes →
      P (withLane v s c) (lanes ++ [nextLane v title])) :
    ∃ v lanes c, opened clock = { v with
      systems := (v.systems.add { policy := .ignore }).2
      client := { lanes, system := ⟨v.systems.next⟩, clock := c } } ∧ P v lanes ∧
      (clock.isSome = true → ∃ r, c = .manual r) :=
  opened_induction_on (P := fun _ => P) clock (fun _ => hnone)
    fun c v lanes title easing s => hmore v lanes title easing s c

/-- The lanes of a gallery that is being set up: nothing is started and nothing is listed. -/
structure Furnished (w : World Hall) (lanes : List Lane) : Prop where
  wired : w.Wired lanes
  timer : ∀ d, w.timer d = {}
  described : ∀ r, (w.descriptions.get r).value.easing.isCurve = true
  completed : ∀ lane ∈ lanes, lane.completed = 0
  transitions : ∀ r : Ref Transition, r.index < w.transitions.next → ∃ lane ∈ lanes, r = lane.transition

namespace Furnished

theorem nil (monotonic : Int) (clocks : Store ManualClock) :
    Furnished { monotonic, clocks, client := {} } [] where
  wired := ⟨List.nodup_nil, List.forall_mem_nil _, List.forall_mem_nil _, List.forall_mem_nil _⟩
  timer _ := rfl
  described _ := rfl
  completed := List.forall_mem_nil _
  transitions _ hr := absurd hr (Nat.not_lt_zero _)

theorem withLane {w : World Hall} {lanes : List Lane} (h : Furnished w lanes)
    {title easing : String} {s : Setting Description} (c : Clock)
    (hs : Setting.ofText title (Gallery.withLength defaultLength easing) = .ok s) :
    Furnished (Gallery.withLane w s c) (lanes ++ [nextLane w title]) := by
  have hduration : ∀ d, (Gallery.withLane w s c).durations.get d =
      if d = ⟨w.durations.next⟩ then
        ⟨.description ⟨w.descriptions.next⟩, .named .circle, c, {}⟩
      else w.durations.get d := w.durations.get_add _
  refine ⟨⟨?_, ?_, ?_, ?_⟩, fun d => ?_, fun r => ?_, ?_, fun r hr => ?_⟩
  · rw [List.map_append]
    refine h.wired.apart.append (List.nodup_singleton _) (List.disjoint_singleton.mpr ?_)
    intro hmem
    obtain ⟨lane, hlane, heq⟩ := List.mem_map.mp hmem
    exact Ref.ne_of_lt (h.wired.known lane hlane).1 heq
  · rw [List.forall_mem_append, List.forall_mem_singleton]
    refine ⟨fun lane hlane => ?_, ?_⟩
    · rw [transition_withLane _ _ (h.wired.known lane hlane).2.1]
      exact h.wired.duration lane hlane
    · rw [transition_nextLane]
      rfl
  · rw [List.forall_mem_append, List.forall_mem_singleton]
    refine ⟨fun lane hlane => ?_, ?_⟩
    · rw [hduration, if_neg (Ref.ne_of_lt (h.wired.known lane hlane).1)]
      exact h.wired.source lane hlane
    · rw [hduration]
      exact congrArg Duration.source (if_pos rfl)
  · rw [List.forall_mem_append, List.forall_mem_singleton]
    refine ⟨fun lane hlane => ?_, Nat.lt_succ_self _, Nat.lt_succ_self _, Nat.lt_succ_self _⟩
    exact (h.wired.known lane hlane).imp Nat.lt_succ_of_lt
      (And.imp Nat.lt_succ_of_lt Nat.lt_succ_of_lt)
  · rw [World.timer, hduration]
    split
    · rfl
    · exact h.timer d
  · rw [show (Gallery.withLane w s c).descriptions.get r = _ from w.descriptions.get_add s r]
    split
    · exact Setting.isCurve_of_ofText hs
    · exact h.described r
  · rw [List.forall_mem_append, List.forall_mem_singleton]
    exact ⟨h.completed, rfl⟩
  · rcases Nat.lt_succ_iff_lt_or_eq.mp hr with hr | hr
    · obtain ⟨lane, hlane, heq⟩ := h.transitions r hr
      exact ⟨lane, List.mem_append_left _ hlane, heq⟩
    · exact ⟨_, List.mem_append_right _ (List.mem_singleton_self _), Ref.ext hr⟩

/-- Each transition moves with a duration of its own. -/
theorem alone {w : World Hall} {lanes : List Lane} (h : Furnished w lanes) {lane : Lane}
    (hlane : lane ∈ lanes) {r : Ref Transition} (hr : r.index < w.transitions.next)
    (hduration : (w.transitions.get r).duration = lane.duration) : r = lane.transition := by
  obtain ⟨other, hother, rfl⟩ := h.transitions r hr
  rw [h.wired.duration other hother] at hduration
  rw [List.inj_on_of_nodup_map h.wired.apart hother hlane hduration]

end Furnished

/-- A new gallery is in order, has counted nothing, and has nothing pending. -/
theorem tidy_opened (clock : Option Int) :
    (opened clock).Tidy ∧ (opened clock).Homely ∧
      ∀ lane ∈ (opened clock).client.lanes, lane.completed = 0 ∧
        ((opened clock).timer lane.duration).pending = false := by
  obtain ⟨v, lanes, c, heq, hv, -⟩ := opened_induction (P := Furnished) clock .nil
    fun v lanes title easing s c _ hs hv => hv.withLane c hs
  have hmembers : (opened clock).members = [] := by
    rw [heq, members, listed]
    exact congrArg System.members (v.systems.get_add_self _)
  have hpending : ∀ d, ((opened clock).timer d).pending = false := by
    intro d
    rw [heq]
    exact congrArg Timer.pending (hv.timer d)
  have hunbound : ∀ lane, (opened clock).bound lane = false := by
    intro lane
    rw [bound, hmembers]
    rfl
  have hnone : ∀ {d : Ref Duration} {P : Prop},
      ((opened clock).timer d).pending = true → P := by
    intro d P h
    rw [hpending] at h
    cases h
  refine ⟨⟨?_, ⟨?_, fun lane _ => ?_, fun lane _ => ?_, ?_⟩, fun _ _ => hnone, fun _ _ => hnone, ?_⟩,
    ⟨?_, fun lane hlane => ⟨?_, fun h => ?_⟩⟩, fun lane hlane => ⟨?_, hpending _⟩⟩
  · rw [heq]
    exact ⟨hv.wired.apart, hv.wired.duration, hv.wired.source, hv.wired.known⟩
  · rw [hmembers]
    exact List.nodup_nil
  · rw [hmembers]
    exact List.forall_mem_nil _
  · rw [hmembers]
    exact List.forall_mem_nil _
  · rw [hmembers]
    exact List.forall_mem_nil _
  · rw [heq]
    exact fun lane _ => hv.described lane.setting
  · rw [hmembers]
    exact List.forall_mem_nil _
  · rw [heq] at hlane ⊢
    exact fun r hr => hv.alone hlane hr
  · rw [hunbound] at h
    cases h
  · rw [heq] at hlane
    exact hv.completed lane hlane

end Gallery

end Tween
