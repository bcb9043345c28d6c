import Tween.Gallery.Move
import Tween.Proofs.Curves
import Tween.Proofs.Settling

namespace Tween

namespace Gallery

abbrev Lane.duration (lane : Lane) : Ref Duration :=
  lane.animation.duration

abbrev Lane.transition (lane : Lane) : Ref Transition :=
  lane.animation.transition

def Lane.binding (lane : Lane) : Binding :=
  ⟨lane.orb, place, lane.transition⟩

end Gallery

namespace World

open Gallery

variable {w w' : World Hall} {lane : Lane}

def members (w : World Hall) : List (Ref Binding) :=
  w.listed w.client.system

def followed (w : World Hall) : List (Ref Duration) :=
  w.members.map w.durationOf

def follows (w : World Hall) (lane : Lane) (b : Ref Binding) : Bool :=
  (w.bindings.get b).transition = lane.transition

def bound (w : World Hall) (lane : Lane) : Bool :=
  w.members.any fun b => (w.bindings.get b).transition = lane.transition

def isForeign (w : World Hall) (b : Ref Binding) : Bool :=
  !w.client.lanes.any (w.follows · b)

/-- Each lane has a duration of its own that goes by its setting, and a transition with that
duration. -/
structure Wired (w : World Hall) (lanes : List Lane) : Prop where
  apart : (lanes.map Lane.duration).Nodup
  duration : ∀ lane ∈ lanes, (w.transitions.get lane.transition).duration = lane.duration
  source : ∀ lane ∈ lanes, (w.durations.get lane.duration).source = .description lane.setting
  known : ∀ lane ∈ lanes, lane.duration.index < w.durations.next ∧
    lane.transition.index < w.transitions.next ∧ lane.setting.index < w.descriptions.next

/-- No binding is listed twice, and one at most follows a lane, which moves the orb of the lane. -/
structure Listing (w : World Hall) : Prop where
  nodup : w.members.Nodup
  single : ∀ lane ∈ w.client.lanes, ∀ b ∈ w.members, ∀ c ∈ w.members,
    w.follows lane b = true → w.follows lane c = true → b = c
  own : ∀ lane ∈ w.client.lanes, ∀ b ∈ w.members, w.follows lane b = true →
    w.bindings.get b = lane.binding
  known : ∀ b ∈ w.members,
    b.index < w.bindings.next ∧ (w.bindings.get b).transition.index < w.transitions.next

/-- The gallery in order: a lane is bound while its completion is pending. -/
structure Tidy (w : World Hall) : Prop where
  wired : w.Wired w.client.lanes
  listing : w.Listing
  bound : ∀ lane ∈ w.client.lanes, (w.timer lane.duration).pending = true → w.bound lane = true
  started : ∀ lane ∈ w.client.lanes, (w.timer lane.duration).pending = true →
    (w.timer lane.duration).startedAt.isSome = true
  described : ∀ lane ∈ w.client.lanes,
    (w.descriptions.get lane.setting).value.easing.isCurve = true

/-- A lane whose duration moves no other transition, and which is bound only while its completion is
pending. -/
structure Undisturbed (w : World Hall) (lane : Lane) : Prop where
  alone : ∀ r : Ref Transition, r.index < w.transitions.next →
    (w.transitions.get r).duration = lane.duration → r = lane.transition
  pending : w.bound lane = true → (w.timer lane.duration).pending = true

/-- The gallery without foreign bindings. -/
structure Homely (w : World Hall) : Prop where
  home : ∀ b ∈ w.members, w.isForeign b = false
  undisturbed : ∀ lane ∈ w.client.lanes, w.Undisturbed lane

/-- In `w'` all objects of `w` are what they were, up to their contents. -/
structure Extends (w w' : World Hall) : Prop where
  duration : ∀ r : Ref Transition, r.index < w.transitions.next →
    (w'.transitions.get r).duration = (w.transitions.get r).duration
  source : ∀ d : Ref Duration, d.index < w.durations.next →
    (w'.durations.get d).source = (w.durations.get d).source
  binding : ∀ b : Ref Binding, b.index < w.bindings.next → w'.bindings.get b = w.bindings.get b
  durations_le : w.durations.next ≤ w'.durations.next
  transitions_le : w.transitions.next ≤ w'.transitions.next
  descriptions_le : w.descriptions.next ≤ w'.descriptions.next
  bindings_le : w.bindings.next ≤ w'.bindings.next
  lanes : ∃ f : Lane → Nat,
    w'.client.lanes = w.client.lanes.map fun lane => { lane with completed := f lane }

theorem bound_iff : w.bound lane = true ↔ ∃ b ∈ w.members, w.follows lane b = true :=
  List.any_eq_true

theorem isForeign_eq_false_iff {b : Ref Binding} :
    w.isForeign b = false ↔ ∃ lane ∈ w.client.lanes, w.follows lane b = true := by
  rw [isForeign, Bool.not_eq_false', List.any_eq_true]

theorem isForeign_iff {b : Ref Binding} :
    w.isForeign b = true ↔ ∀ lane ∈ w.client.lanes, w.follows lane b = false := by
  rw [isForeign, Bool.not_eq_true', List.any_eq_false]
  simp only [Bool.not_eq_true]

namespace Wired

variable {lanes : List Lane}

theorem eq_of_duration (h : w.Wired lanes) {a b : Lane} (ha : a ∈ lanes) (hb : b ∈ lanes)
    (heq : a.duration = b.duration) : a = b :=
  List.inj_on_of_nodup_map h.apart ha hb heq

theorem durationOf_of_follows (h : w.Wired lanes) (hlane : lane ∈ lanes) {b : Ref Binding}
    (hb : w.follows lane b = true) : w.durationOf b = lane.duration := by
  rw [durationOf, of_decide_eq_true hb]
  exact h.duration lane hlane

theorem follows_of_home (h : w.Wired w.client.lanes) (hlane : lane ∈ w.client.lanes)
    {b : Ref Binding} (hduration : w.durationOf b = lane.duration) (hb : w.isForeign b = false) :
    w.follows lane b = true := by
  obtain ⟨other, hother, hfollows⟩ := isForeign_eq_false_iff.mp hb
  have hsame := (h.durationOf_of_follows hother hfollows).symm.trans hduration
  rwa [h.eq_of_duration hother hlane hsame] at hfollows

theorem extended (h : w.Wired w.client.lanes) (e : w.Extends w') : w'.Wired w'.client.lanes := by
  obtain ⟨f, hf⟩ := e.lanes
  rw [hf]
  refine ⟨?_, ?_, ?_, ?_⟩
  · rw [List.map_map]
    exact h.apart
  · rw [List.forall_mem_map]
    exact fun lane hlane => (e.duration _ (h.known lane hlane).2.1).trans (h.duration lane hlane)
  · rw [List.forall_mem_map]
    exact fun lane hlane => (e.source _ (h.known lane hlane).1).trans (h.source lane hlane)
  · rw [List.forall_mem_map]
    intro lane hlane
    have hknown := h.known lane hlane
    exact ⟨hknown.1.trans_le e.durations_le, hknown.2.1.trans_le e.transitions_le,
      hknown.2.2.trans_le e.descriptions_le⟩

end Wired

namespace Listing

theorem follows_extended (h : w.Listing) (e : w.Extends w') {b : Ref Binding} (hb : b ∈ w.members)
    (lane : Lane) : w'.follows lane b = w.follows lane b := by
  rw [follows, e.binding b (h.known b hb).1, follows]

theorem isForeign_extended (h : w.Listing) (e : w.Extends w') {b : Ref Binding}
    (hb : b ∈ w.members) : w'.isForeign b = w.isForeign b := by
  obtain ⟨f, hf⟩ := e.lanes
  have hsame : (w'.follows · b) ∘ (fun lane : Lane => { lane with completed := f lane }) =
      (w.follows · b) := funext fun lane => h.follows_extended e hb lane
  rw [isForeign, hf, List.any_map, hsame, isForeign]

theorem bound_extended (h : w.Listing) (e : w.Extends w') (hmembers : w'.members = w.members)
    (lane : Lane) : w'.bound lane = w.bound lane := by
  rw [Bool.eq_iff_iff, bound_iff, bound_iff, hmembers]
  refine exists_congr fun b => and_congr_right fun hb => ?_
  rw [h.follows_extended e hb]

theorem extended (h : w.Listing) (e : w.Extends w') (hsub : w'.members.Sublist w.members) :
    w'.Listing := by
  have hmem : ∀ b ∈ w'.members, b ∈ w.members := fun b hb => hsub.subset hb
  obtain ⟨f, hf⟩ := e.lanes
  refine ⟨h.nodup.sublist hsub, ?_, ?_, fun b hb => ?_⟩
  · rw [hf, List.forall_mem_map]
    intro lane hlane b hb c hc hfb hfc
    rw [h.follows_extended e (hmem b hb)] at hfb
    rw [h.follows_extended e (hmem c hc)] at hfc
    exact h.single lane hlane b (hmem b hb) c (hmem c hc) hfb hfc
  · rw [hf, List.forall_mem_map]
    intro lane hlane b hb hfollows
    rw [h.follows_extended e (hmem b hb)] at hfollows
    rw [e.binding b (h.known b (hmem b hb)).1]
    exact h.own lane hlane b (hmem b hb) hfollows
  · have hknown := h.known b (hmem b hb)
    rw [e.binding b hknown.1]
    exact ⟨hknown.1.trans_le e.bindings_le, hknown.2.trans_le e.transitions_le⟩

end Listing

def enlisted (w : World Hall) (binding : Binding) : World Hall :=
  { w with
    bindings := (w.bindings.add binding).2
    systems := w.systems.modify w.client.system fun x =>
      { x with members := w.members ++ [⟨w.bindings.next⟩] } }

theorem members_enlisted (w : World Hall) (binding : Binding) :
    (w.enlisted binding).members = w.members ++ [⟨w.bindings.next⟩] := by
  change ((w.systems.modify w.client.system _).get w.client.system).members = _
  rw [Store.modify, Store.get_set_self]

namespace Extends

theorem refl (w : World Hall) : w.Extends w where
  duration _ _ := rfl
  source _ _ := rfl
  binding _ _ := rfl
  durations_le := Nat.le_refl _
  transitions_le := Nat.le_refl _
  descriptions_le := Nat.le_refl _
  bindings_le := Nat.le_refl _
  lanes := ⟨Lane.completed, (List.map_id' _).symm⟩

theorem enlisted (w : World Hall) (binding : Binding) : w.Extends (w.enlisted binding) :=
  { refl w with
    binding := fun _ hb => w.bindings.get_add_of_lt binding hb
    bindings_le := Nat.le_succ _ }

theorem withTimer (w : World Hall) (d : Ref Duration) (f : Timer → Timer) :
    w.Extends (w.withTimer d f) :=
  { refl w with
    source := fun q _ => by
      rw [get_withTimer]
      split <;> rfl }

theorem addDuration (w : World Hall) (x : Duration) :
    w.Extends { w with durations := (w.durations.add x).2 } :=
  { refl w with
    source := fun _ hd => by rw [w.durations.get_add_of_lt x hd]
    durations_le := Nat.le_succ _ }

theorem addTransition (w : World Hall) (x : Transition) :
    w.Extends { w with transitions := (w.transitions.add x).2 } :=
  { refl w with
    duration := fun _ hr => by rw [w.transitions.get_add_of_lt x hr]
    transitions_le := Nat.le_succ _ }

theorem addDescription (w : World Hall) (x : Setting Description) :
    w.Extends { w with descriptions := (w.descriptions.add x).2 } :=
  { refl w with descriptions_le := Nat.le_succ _ }

theorem setEnds (w : World Hall) (r : Ref Transition) (start finish : Float) :
    w.Extends ((Act.setEnds r start finish).perform w).2 :=
  { refl w with
    duration := by
      intro q _
      change ((w.transitions.set r _).get q).duration = _
      rw [Store.get_set]
      split
      · next heq => rw [heq]
      · rfl }

end Extends

theorem timer_withTimer (w : World Hall) (d q : Ref Duration) (f : Timer → Timer) :
    (w.withTimer d f).timer q = if d = q then f (w.timer q) else w.timer q := by
  rw [timer, get_withTimer]
  split <;> rfl

section Enlisting

variable (h : w.Listing) (binding : Binding)
include h

theorem follows_enlisted (lane : Lane) :
    (∀ b ∈ w.members, (w.enlisted binding).follows lane b = w.follows lane b) ∧
      (w.enlisted binding).follows lane ⟨w.bindings.next⟩ =
        decide (binding.transition = lane.transition) := by
  refine ⟨fun b hb => h.follows_extended (.enlisted w binding) hb lane, ?_⟩
  rw [follows, show (w.enlisted binding).bindings.get ⟨w.bindings.next⟩ = binding from
    w.bindings.get_add_self binding]

theorem bound_enlisted (lane : Lane) : (w.enlisted binding).bound lane =
    (w.bound lane || decide (binding.transition = lane.transition)) := by
  obtain ⟨hold, hnew⟩ := follows_enlisted h binding lane
  rw [Bool.eq_iff_iff, Bool.or_eq_true, bound_iff, bound_iff, members_enlisted, ← hnew]
  constructor
  · rintro ⟨b, hb, hfollows⟩
    rcases List.mem_append.mp hb with hb | hb
    · exact .inl ⟨b, hb, hold b hb ▸ hfollows⟩
    · obtain rfl := List.mem_singleton.mp hb
      exact .inr hfollows
  · rintro (⟨b, hb, hfollows⟩ | hfollows)
    · exact ⟨b, List.mem_append_left _ hb, hold b hb ▸ hfollows⟩
    · exact ⟨_, List.mem_append_right _ (List.mem_singleton_self _), hfollows⟩

theorem Listing.enlisted (hknown : binding.transition.index < w.transitions.next)
    (hown : ∀ lane ∈ w.client.lanes, binding.transition = lane.transition →
      binding = lane.binding ∧ w.bound lane = false) : (w.enlisted binding).Listing := by
  have e := Extends.enlisted w binding
  have hnew : (⟨w.bindings.next⟩ : Ref Binding) ∉ w.members := fun hmem =>
    Nat.lt_irrefl _ (h.known _ hmem).1
  -- A lane that the new binding follows has no other.
  have hfresh : ∀ lane ∈ w.client.lanes, binding.transition = lane.transition →
      ∀ b ∈ w.members, w.follows lane b = false := by
    intro lane hlane heq b hb
    rw [← Bool.not_eq_true]
    intro hfollows
    have := (hown lane hlane heq).2
    rw [bound_iff.mpr ⟨b, hb, hfollows⟩] at this
    cases this
  refine ⟨?_, ?_, ?_, ?_⟩
  · rw [members_enlisted]
    exact h.nodup.append (List.nodup_singleton _) (List.disjoint_singleton.mpr hnew)
  · intro lane hlane b hb c hc
    obtain ⟨hold, hself⟩ := follows_enlisted h binding lane
    rw [members_enlisted] at hb hc
    rcases List.mem_append.mp hb with hb | hb <;> rcases List.mem_append.mp hc with hc | hc
    · rw [hold b hb, hold c hc]
      exact h.single lane hlane b hb c hc
    · obtain rfl := List.mem_singleton.mp hc
      rw [hold b hb, hself, decide_eq_true_iff]
      intro hfb heq
      rw [hfresh lane hlane heq b hb] at hfb
      cases hfb
    · obtain rfl := List.mem_singleton.mp hb
      rw [hold c hc, hself, decide_eq_true_iff]
      intro heq hfc
      rw [hfresh lane hlane heq c hc] at hfc
      cases hfc
    · rw [List.mem_singleton.mp hb, List.mem_singleton.mp hc]
      exact fun _ _ => rfl
  · intro lane hlane b hb
    obtain ⟨hold, hself⟩ := follows_enlisted h binding lane
    rw [members_enlisted] at hb
    rcases List.mem_append.mp hb with hb | hb
    · rw [hold b hb, e.binding b (h.known b hb).1]
      exact h.own lane hlane b hb
    · obtain rfl := List.mem_singleton.mp hb
      rw [hself, decide_eq_true_iff]
      exact fun heq => (w.bindings.get_add_self binding).trans (hown lane hlane heq).1
  · rw [members_enlisted, List.forall_mem_append, List.forall_mem_singleton]
    refine ⟨fun b hb => ?_, Nat.lt_succ_self _, ?_⟩
    · have hb' := h.known b hb
      rw [e.binding b hb'.1]
      exact ⟨Nat.lt_succ_of_lt hb'.1, hb'.2⟩
    · rw [show (w.enlisted binding).bindings.get ⟨w.bindings.next⟩ = binding from
        w.bindings.get_add_self binding]
      exact hknown

end Enlisting

theorem Undisturbed.follows (h : w.Undisturbed lane) (hl : w.Listing) {b : Ref Binding}
    (hb : b ∈ w.members) (hduration : w.durationOf b = lane.duration) : w.follows lane b = true :=
  decide_eq_true (h.alone _ (hl.known b hb).2 hduration)

theorem Undisturbed.extended (h : w.Undisturbed lane) (e : w.Extends w')
    (hnext : w'.transitions.next = w.transitions.next)
    (hpending : w'.bound lane = true → (w'.timer lane.duration).pending = true) :
    w'.Undisturbed lane where
  alone r hr hduration := by
    rw [hnext] at hr
    rw [e.duration r hr] at hduration
    exact h.alone r hr hduration
  pending := hpending

/-- Nothing but contents may change, and pending completions only beside the lanes. -/
theorem Tidy.extended (h : w.Tidy) (e : w.Extends w') (hmembers : w'.members = w.members)
    (htimer : ∀ lane ∈ w.client.lanes,
      (w'.timer lane.duration).pending = (w.timer lane.duration).pending ∧
        ((w'.timer lane.duration).pending = true →
          (w'.timer lane.duration).startedAt.isSome = true))
    (hdescribed : ∀ lane ∈ w.client.lanes,
      (w'.descriptions.get lane.setting).value.easing.isCurve = true) : w'.Tidy := by
  obtain ⟨f, hf⟩ := e.lanes
  refine ⟨h.wired.extended e, h.listing.extended e (hmembers ▸ List.Sublist.refl _), ?_, ?_, ?_⟩
  · rw [hf, List.forall_mem_map]
    intro lane hlane hpending
    rw [h.listing.bound_extended e hmembers]
    exact h.bound lane hlane ((htimer lane hlane).1 ▸ hpending)
  · rw [hf, List.forall_mem_map]
    exact fun lane hlane => (htimer lane hlane).2
  · rw [hf, List.forall_mem_map]
    exact hdescribed

theorem Tidy.isCurve_easing (h : w.Tidy) (hlane : lane ∈ w.client.lanes) :
    (w.easing lane.duration).isCurve = true := by
  unfold easing
  rw [h.wired.source lane hlane]
  exact h.described lane hlane

namespace Homely

variable (hh : w.Homely) (h : w.Tidy)
include hh h

theorem exists_lane {b : Ref Binding} (hb : b ∈ w.members) :
    ∃ lane ∈ w.client.lanes, w.bindings.get b = lane.binding ∧ w.durationOf b = lane.duration := by
  obtain ⟨lane, hlane, hfollows⟩ := isForeign_eq_false_iff.mp (hh.home b hb)
  exact ⟨lane, hlane, h.listing.own lane hlane b hb hfollows,
    h.wired.durationOf_of_follows hlane hfollows⟩

theorem nodup_followed : w.followed.Nodup := by
  refine h.listing.nodup.map_on fun b hb c hc heq => ?_
  obtain ⟨lane, hlane, hfollows⟩ := isForeign_eq_false_iff.mp (hh.home b hb)
  have hduration := h.wired.durationOf_of_follows hlane hfollows
  exact h.listing.single lane hlane b hb c hc hfollows
    (h.wired.follows_of_home hlane (heq.symm.trans hduration) (hh.home c hc))

theorem mem_followed_iff (hlane : lane ∈ w.client.lanes) :
    lane.duration ∈ w.followed ↔ (w.timer lane.duration).pending = true := by
  constructor
  · intro hmem
    obtain ⟨b, hb, hduration⟩ := List.mem_map.mp hmem
    have hlone := hh.undisturbed lane hlane
    exact hlone.pending (bound_iff.mpr ⟨b, hb, hlone.follows h.listing hb hduration⟩)
  · intro hpending
    obtain ⟨b, hb, hfollows⟩ := bound_iff.mp (h.bound lane hlane hpending)
    exact List.mem_map.mpr ⟨b, hb, h.wired.durationOf_of_follows hlane hfollows⟩

end Homely

end World

end Tween
