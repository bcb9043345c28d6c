import Tween.Proofs.Resuming
import Tween.Proofs.Retiring

namespace Tween

variable {κ : Type}

theorem eraseDups_of_nodup {α : Type} [DecidableEq α] {l : List α} (h : l.Nodup) :
    l.eraseDups = l := by
  induction l with
  | nil => rfl
  | cons a rest ih =>
    rw [List.nodup_cons] at h
    rw [List.eraseDups_cons, List.filter_eq_self.mpr, ih h.2]
    intro b hb
    rw [Bool.not_eq_true', beq_eq_false_iff_ne]
    rintro rfl
    exact h.1 hb

namespace Act

open World

variable (w : World κ) (s : Ref System) (report : Ref Binding → Act κ Unit)

/-- The durations whose group a tick gets to, up to the first that fails. -/
def visited : World κ → List Group → List (Ref Duration)
  | _, [] => []
  | w, g :: rest =>
    g.duration ::
      match (settle s report g).perform w with
      | (.ok _, w') => visited w' rest
      | (.error _, _) => []

end Act

namespace World

open Gallery Act

theorem Passed.withClient {w w' : World κ} {s : Ref System} {p : Ref Duration → Float}
    {ds : List (Ref Duration)} {rs : List (Ref Binding)} (h : w.Passed w' s p ds rs) (c : κ) :
    ({ w with client := c } : World κ).Passed { w' with client := c } s p ds rs where
  emits := h.emits.withClient c
  durations := h.durations
  listedOf := h.listedOf

/-- Why an update fails: the progress of a duration that is followed is a fault, or a foreign binding
is listed. -/
def Blames (w : World Hall) (fault : Fault) : Prop :=
  (∃ d ∈ w.followed, w.progress d = .error fault) ∨
    ∃ b ∈ w.members, w.isForeign b = true ∧ fault = .foreignBinding (w.bindings.get b).field

/-- Whether the binding of a lane is listed before all others that go with its duration. -/
def leads (w : World Hall) (lane : Lane) : Bool :=
  (w.members.find? (w.durationOf · = lane.duration)).any (w.follows lane)

/-- The bindings of a duration that an update takes off the list, which is as far as the first foreign
one if their completion is due. -/
def dropped (w : World Hall) (d : Ref Duration) : List (Ref Binding) :=
  if w.due d then throughFirst w.isForeign (w.listedOf w.client.system d)
  else if w.finished d then w.listedOf w.client.system d
  else []

/-- The lanes, with the completions counted that are due for some durations. -/
def counted (w : World Hall) (ds : List (Ref Duration)) : List Lane :=
  w.client.lanes.map fun lane =>
    lane.counting (lane.duration ∈ ds && w.due lane.duration && w.leads lane)

/-- The world `w'` is `w` once an update has handled some durations. -/
structure Handled (w w' : World Hall) (ds : List (Ref Duration)) : Prop where
  emits : w.Emits { w' with client := w.client }
    ((ds.flatMap (w.listedOf w.client.system)).map fun b => w.stroke b (w.reading (w.durationOf b))) []
  durations (q : Ref Duration) :
    w'.durations.get q =
      if q ∈ ds ∧ w.due q = true then { w.durations.get q with timer := (w.timer q).consumed }
      else w.durations.get q
  next : w'.durations.next = w.durations.next
  relisted : w.Relisted w' w.client.system (w.members.filter fun b => b ∉ ds.flatMap w.dropped)
  client : w'.client = { w.client with lanes := w.counted ds }

variable {w w' w₁ w₂ : World Hall} {d : Ref Duration} {ds : List (Ref Duration)} {lane : Lane}

theorem mem_listedOf {s : Ref System} {b : Ref Binding} :
    b ∈ w.listedOf s d ↔ b ∈ w.listed s ∧ w.durationOf b = d := by
  rw [listedOf, List.mem_filter, decide_eq_true_iff]

theorem mem_listedOf_of_mem_dropped {b : Ref Binding} (h : b ∈ w.dropped d) :
    b ∈ w.listedOf w.client.system d := by
  unfold dropped at h
  split at h
  · exact List.mem_of_mem_take h
  · split at h
    · exact h
    · cases h

theorem mem_of_mem_flatMap_dropped {b : Ref Binding} (h : b ∈ ds.flatMap w.dropped) :
    w.durationOf b ∈ ds ∧ b ∈ w.dropped (w.durationOf b) := by
  obtain ⟨d, hd, hb⟩ := List.mem_flatMap.mp h
  obtain rfl := (mem_listedOf.mp (mem_listedOf_of_mem_dropped hb)).2
  exact ⟨hd, hb⟩

theorem leads_eq (w : World Hall) (lane : Lane) : w.leads lane =
    (w.listedOf w.client.system lane.duration).head?.any (w.follows lane) := by
  rw [leads, listedOf, List.head?_filter]
  rfl

namespace Handled

theorem sameTiming (h : w.Handled w' ds) (q : Ref Duration) : w.SameTiming w' q :=
  .of_consumed (h.durations q)

theorem progress (h : w.Handled w' ds) (q : Ref Duration) : w'.progress q = w.progress q :=
  (h.emits.timing (h.sameTiming q)).1

theorem finished (h : w.Handled w' ds) (q : Ref Duration) : w'.finished q = w.finished q :=
  (h.emits.timing (h.sameTiming q)).2

theorem reading (h : w.Handled w' ds) : w'.reading = w.reading := by
  funext q
  rw [World.reading, h.progress, World.reading]

theorem transitions (h : w.Handled w' ds) : w'.transitions = w.transitions := by
  have := congrArg World.transitions h.emits.frame
  exact this

theorem bindings (h : w.Handled w' ds) : w'.bindings = w.bindings := by
  have := congrArg World.bindings h.emits.frame
  exact this

theorem descriptions (h : w.Handled w' ds) : w'.descriptions = w.descriptions := by
  have := congrArg World.descriptions h.emits.frame
  exact this

theorem durationOf (h : w.Handled w' ds) : w'.durationOf = w.durationOf := by
  funext b
  rw [World.durationOf, h.transitions, h.bindings, World.durationOf]

theorem follows (h : w.Handled w' ds) (lane : Lane) (b : Ref Binding) :
    w'.follows lane b = w.follows lane b := by
  rw [World.follows, h.bindings, World.follows]

theorem isForeign (h : w.Handled w' ds) : w'.isForeign = w.isForeign := by
  funext b
  rw [World.isForeign, h.client, counted, List.any_map, World.isForeign]
  exact congrArg (!w.client.lanes.any ·) (funext fun lane => h.follows _ b)

theorem members (h : w.Handled w' ds) :
    w'.members = w.members.filter fun b => b ∉ ds.flatMap w.dropped := by
  have := h.relisted.listed w.client.system
  rw [if_pos rfl] at this
  rw [World.members, h.client]
  exact this

theorem subset (h : w.Handled w' ds) : ∀ b ∈ w'.members, b ∈ w.members := by
  rw [h.members]
  exact fun b hb => (List.mem_filter.mp hb).1

theorem timer (h : w.Handled w' ds) (q : Ref Duration) :
    w'.timer q = if q ∈ ds ∧ w.due q = true then (w.timer q).consumed else w.timer q := by
  rw [World.timer, h.durations]
  split <;> rfl

theorem smoothing (h : w.Handled w' ds) (q : Ref Duration) :
    (w'.durations.get q).smoothing = (w.durations.get q).smoothing := by
  rw [h.durations]
  split <;> rfl

/-- Handling some durations leaves the others with their timing states and their bindings. -/
theorem passed (h : w.Handled w' ds) :
    w.Passed { w' with client := w.client } w.client.system w.reading ds [] where
  emits := h.emits
  durations q hq := (h.durations q).trans (if_neg fun hd => hq hd.1)
  listedOf q hq := by
    rw [World.listedOf, h.emits.durationOf]
    change (w'.listed w.client.system).filter _ = _
    rw [h.relisted.listed, if_pos rfl, List.filter_filter]
    apply List.filter_congr
    intro b _
    by_cases hb : w.durationOf b = q
    · have hstays : b ∉ ds.flatMap w.dropped := fun hmem =>
        hq (hb ▸ (mem_of_mem_flatMap_dropped hmem).1)
      simp [hb, hstays]
    · simp [hb]

section Others

variable (h : w.Handled w' ds) {q : Ref Duration} (hq : q ∉ ds)
include h hq

theorem due : w'.due q = w.due q :=
  h.passed.due hq

theorem listedOf : w'.listedOf w'.client.system q = w.listedOf w.client.system q := by
  rw [h.client]
  exact h.passed.listedOf q hq

theorem dropped : w'.dropped q = w.dropped q := by
  rw [World.dropped, h.due hq, h.finished, h.listedOf hq, h.isForeign, World.dropped]

end Others

theorem mem_followed (h : w.Handled w' ds) {q : Ref Duration} (hq : q ∉ ds) (hmem : q ∈ w.followed) :
    q ∈ w'.followed := by
  obtain ⟨b, hb, hduration⟩ := List.mem_map.mp hmem
  have := mem_listedOf.mpr ⟨hb, hduration⟩
  rw [← h.listedOf hq] at this
  exact List.mem_map.mpr ⟨b, mem_listedOf.mp this⟩

theorem blames {fault : Fault} (h : w.Handled w' ds) (hblames : w'.Blames fault) :
    w.Blames fault := by
  rcases hblames with ⟨d, hd, hprogress⟩ | ⟨b, hb, hforeign, rfl⟩
  · obtain ⟨b, hb, rfl⟩ := List.mem_map.mp hd
    rw [h.durationOf] at hprogress
    exact .inl ⟨_, List.mem_map_of_mem (h.subset b hb), h.progress _ ▸ hprogress⟩
  · rw [h.isForeign] at hforeign
    exact .inr ⟨b, h.subset b hb, hforeign, by rw [h.bindings]⟩

theorem leads (h : w.Handled w' ds) {lane : Lane} (hlane : lane.duration ∉ ds) :
    w'.leads lane = w.leads lane := by
  rw [leads_eq, h.listedOf hlane, funext (h.follows lane), leads_eq]

theorem counted_cons (hd : d ∉ ds) (h : w.Handled w₁ [d]) : w₁.counted ds = w.counted (d :: ds) := by
  rw [counted, h.client]
  change (w.counted [d]).map _ = _
  rw [counted, counted, List.map_map]
  refine List.map_congr_left fun lane _ => ?_
  change (lane.counting _).counting
    (decide (lane.duration ∈ ds) && w₁.due lane.duration && w₁.leads lane) = _
  by_cases hlane : lane.duration = d
  · simp [hlane, hd, Lane.counting]
  · have hother : lane.duration ∉ [d] := mt List.mem_singleton.mp hlane
    rw [h.due hother, h.leads hother]
    simp [hlane, Lane.counting]

theorem cons (hd : d ∉ ds) (h : w.Handled w₁ [d]) (h' : w₁.Handled w₂ ds) :
    w.Handled w₂ (d :: ds) := by
  have hother := not_mem_singleton_of_mem hd
  have hsystem : w₁.client.system = w.client.system := by rw [h.client]
  refine ⟨?_, fun q => ?_, h'.next.trans h.next, ?_, ?_⟩
  · have hrest := h'.passed.withClient w.client
    rw [hsystem, h.reading] at hrest
    exact (h.passed.cons hd hrest).emits
  · rw [h'.durations]
    by_cases hq : q ∈ ds
    · have hsame : w₁.durations.get q = w.durations.get q := h.passed.durations q (hother q hq)
      rw [World.timer, hsame, h.due (hother q hq)]
      simp only [hq, List.mem_cons, or_true, true_and]
      rfl
    · rw [if_neg fun hqd => hq hqd.1, h.durations]
      simp only [List.mem_cons, List.not_mem_nil, hq, or_false]
  · have := h.relisted.trans (hsystem ▸ h'.relisted)
    rw [h.members, List.filter_filter, List.flatMap_congr fun q hq => h.dropped (hother q hq)] at this
    rw [List.filter_congr fun b _ => ?_]
    · exact this
    · simp only [List.flatMap_cons, List.flatMap_nil, List.append_nil, List.mem_append, not_or,
        Bool.decide_and, Bool.and_comm]
  · rw [h'.client, h.counted_cons hd, h.client]

theorem extended (h : w.Handled w' ds) : w.Extends w' where
  duration _ _ := by rw [h.transitions]
  source q _ := by
    rw [h.durations]
    split <;> rfl
  binding _ _ := by rw [h.bindings]
  durations_le := h.next.ge
  transitions_le := (congrArg Store.next h.transitions).ge
  descriptions_le := (congrArg Store.next h.descriptions).ge
  bindings_le := (congrArg Store.next h.bindings).ge
  lanes := ⟨fun lane => (lane.counting _).completed, by rw [h.client]; rfl⟩

/-- What is pending after all has not been due, so its binding has been left on the list. -/
theorem bound_of_pending (h : w.Handled w' ds) (ht : w.Tidy) {lane : Lane}
    (hlane : lane ∈ w.client.lanes) (hpending : (w'.timer lane.duration).pending = true) :
    w'.bound lane = true := by
  rw [h.timer] at hpending
  split at hpending
  · cases hpending
  · next hdue =>
    obtain ⟨b, hb, hfollows⟩ := bound_iff.mp (ht.bound lane hlane hpending)
    refine bound_iff.mpr ⟨b, ?_, (h.follows lane b).trans hfollows⟩
    rw [h.members, List.mem_filter, decide_eq_true_iff]
    refine ⟨hb, fun hmem => ?_⟩
    obtain ⟨hd, hdropped⟩ := mem_of_mem_flatMap_dropped hmem
    rw [ht.wired.durationOf_of_follows hlane hfollows] at hd hdropped
    rw [World.dropped, if_neg fun hd' => hdue ⟨hd, hd'⟩] at hdropped
    split at hdropped
    · next hfinished => exact hdue ⟨hd, by rw [due_eq, hfinished, hpending]; rfl⟩
    · cases hdropped

theorem tidy (h : w.Handled w' ds) (ht : w.Tidy) : w'.Tidy := by
  refine ⟨ht.wired.extended h.extended, ht.listing.extended h.extended ?_, ?_, ?_, ?_⟩
  · rw [h.members]
    exact List.filter_sublist
  · rw [h.client, counted, List.forall_mem_map]
    intro lane hlane
    have hbound := h.bound_of_pending ht hlane
    exact hbound
  · rw [h.client, counted, List.forall_mem_map]
    intro lane hlane hpending
    change (w'.timer lane.duration).pending = true at hpending
    change (w'.timer lane.duration).startedAt.isSome = true
    rw [h.timer] at hpending ⊢
    split
    · next hdue =>
      rw [if_pos hdue] at hpending
      cases hpending
    · next hdue =>
      rw [if_neg hdue] at hpending
      exact ht.started lane hlane hpending
  · rw [h.client, counted, List.forall_mem_map, h.descriptions]
    exact ht.described

theorem undisturbed (h : w.Handled w' ds) (ht : w.Tidy) {lane : Lane} (hlane : lane ∈ w.client.lanes)
    (hu : w.Undisturbed lane) : w'.Undisturbed lane := by
  refine hu.extended h.extended (by rw [h.transitions]) fun hbound => ?_
  obtain ⟨b, hb, hfollows⟩ := bound_iff.mp hbound
  rw [h.follows] at hfollows
  rw [h.members, List.mem_filter, decide_eq_true_iff] at hb
  have hpending := hu.pending (bound_iff.mpr ⟨b, hb.1, hfollows⟩)
  rw [h.timer, if_neg]
  · exact hpending
  · rintro ⟨hd, hdue⟩
    refine hb.2 (List.mem_flatMap.mpr ⟨_, hd, ?_⟩)
    rw [World.dropped, if_pos hdue]
    have hhome : ∀ c ∈ w.listedOf w.client.system lane.duration, w.isForeign c = false := by
      intro c hc
      obtain ⟨hc, hduration⟩ := mem_listedOf.mp hc
      exact isForeign_eq_false_iff.mpr ⟨lane, hlane, hu.follows ht.listing hc hduration⟩
    have hall := throughFirst_append w.isForeign hhome []
    rw [List.append_nil] at hall
    rw [hall]
    exact List.mem_append_left _ (mem_listedOf.mpr
      ⟨hb.1, ht.wired.durationOf_of_follows hlane hfollows⟩)

theorem homely (h : w.Handled w' ds) (ht : w.Tidy) (hh : w.Homely) : w'.Homely where
  home b hb := by
    rw [h.isForeign]
    exact hh.home b (h.subset b hb)
  undisturbed := by
    rw [h.client, counted, List.forall_mem_map]
    intro lane hlane
    have hlone := h.undisturbed ht hlane (hh.undisturbed lane hlane)
    exact ⟨hlone.alone, hlone.pending⟩

theorem of_emits {v : World Hall} (hemits : w.Emits v [] []) (hdurations : v.durations = w.durations)
    (hsystems : v.systems = w.systems) : w.Handled v [] := by
  have hv : ({ v with client := w.client } : World Hall) = v := by rw [hemits.frame]
  refine ⟨hv ▸ hemits, fun q => ?_, by rw [hdurations], fun r => ?_, ?_⟩
  · rw [hdurations, if_neg fun h => List.not_mem_nil h.1]
  · rw [hsystems, List.filter_eq_self.mpr fun b _ => by simp]
    exact Relisted.refl w _ r
  · rw [counted, map_counting_eq_self fun _ _ => by simp, hemits.frame]

/-- A duration is handled once its bindings have been written, its completion has been consumed if it
is due, and its bindings have been taken off the list as far as they are. -/
theorem of_retired
    (hemits : w.Emits w₁ ((w.listedOf w.client.system d).map fun b =>
      w.stroke b (w.reading (w.durationOf b))) [])
    (hsystems : w₁.systems = w.systems)
    (hdurations : ∀ q, w₁.durations.get q =
      if d = q ∧ w.due d = true then { w.durations.get q with timer := (w.timer q).consumed }
      else w.durations.get q)
    (hnext : w'.durations.next = w.durations.next)
    (h : w₁.Retired w' (w.dropped d) fun lane => lane.duration = d && w.due d && w.leads lane) :
    w.Handled w' [d] := by
  have hclient : w₁.client = w.client := by rw [hemits.frame]
  refine ⟨?_, fun q => ?_, hnext, fun r => ?_, ?_⟩
  · have := hemits.trans (hclient ▸ h.emits)
    rw [List.append_nil, List.append_nil] at this
    simpa only [List.flatMap_cons, List.flatMap_nil, List.append_nil] using this
  · rw [h.durations, hdurations]
    by_cases hq : d = q
    · simp [hq]
    · simp [hq, Ne.symm hq]
  · have hmembers : w₁.members = w.members := by rw [World.members, hclient, listed, hsystems]; rfl
    rw [h.relisted r, hclient, hsystems, hmembers]
    simp only [List.flatMap_cons, List.flatMap_nil, List.append_nil]
  · have hcounts : ∀ lane : Lane, (decide (lane.duration ∈ [d]) && w.due lane.duration &&
        w.leads lane) = (decide (lane.duration = d) && w.due d && w.leads lane) := by
      intro lane
      by_cases hlane : lane.duration = d <;> simp [hlane]
    rw [h.client, hclient, counted]
    simp only [hcounts]

end Handled

end World

namespace Act

open World Gallery

variable {w : World Hall} {d : Ref Duration}

theorem keeps_next_complete (n : Nat) (b : Ref Binding) :
    Keeps (fun w : World Hall => w.durations.next = n) (complete b) := by
  refine .get_bind fun w hw => ?_
  dsimp only
  split <;> exact hw

section Group

variable {w₁ : World Hall} {strokes : List Stroke} (hemits : w.Emits w₁ strokes [])
  (hsystems : w₁.systems = w.systems)
include hemits hsystems

/-- Where no completion is due, the bindings of a duration that is over leave the list unreported. -/
theorem retired_of_not_due (hdue : w.due d = false) :
    ∃ w', (if w.finished d then ((w.listedOf w.client.system d).forM
        (retire w.client.system complete (w.due d))).perform w₁ else (.ok (), w₁)) = (.ok (), w') ∧
      w₁.Retired w' (w.dropped d) fun _ => false := by
  have hclient : w₁.client = w.client := by rw [hemits.frame]
  rw [dropped, hdue, if_neg Bool.false_ne_true]
  cases hf : w.finished d with
  | false => exact ⟨w₁, rfl, .nil w₁⟩
  | true =>
    rw [if_pos rfl, retire_of_not_due complete (follow w.client.system .ignore)]
    obtain ⟨w', hretire, hemits', hdurations, hlist⟩ := perform_forM_retire w₁
      (show Policy.ignore.isQuiet = true from rfl) false (w.durationOf · = d)
      (w.listedOf w.client.system d) (by rw [listed, hsystems]; rfl)
    have hclient' : w'.client = w₁.client := by rw [hemits'.frame]
    refine ⟨w', hretire, ?_, hdurations, ?_, ?_⟩
    · rw [← hclient']
      exact hemits'
    · have hmembers : w₁.members = w.members := by rw [World.members, hclient, listed, hsystems]; rfl
      rw [hclient, hmembers, if_pos rfl, List.filter_congr fun b hb => ?_]
      · rw [show w.members = w₁.listed w.client.system by rw [listed, hsystems]; rfl]
        exact hlist
      · rw [← decide_not, decide_eq_decide, mem_listedOf]
        exact not_congr (and_iff_right hb)
    · rw [map_counting_eq_self fun _ _ => rfl]
      exact hclient'

theorem retired_of_due (h : w.Tidy) (hd : d ∈ w.followed) (hdue : w.due d = true) :
    ∃ r w', ((w.listedOf w.client.system d).forM (retire w.client.system complete true)).perform w₁ =
        (r, w') ∧
      (w₁.Retired w' (w.dropped d) fun lane => lane.duration = d && w.leads lane) ∧
      (r.isOk = true → ∀ b ∈ w.listedOf w.client.system d, w.isForeign b = false) ∧
      ∀ fault, r = .error fault → w.Blames fault := by
  have hclient : w₁.client = w.client := by rw [hemits.frame]
  have hmembers : w₁.members = w.members := by rw [World.members, hclient, listed, hsystems]; rfl
  have hbindings : w₁.bindings = w.bindings := by rw [hemits.frame]
  have hfollows : ∀ lane b, w₁.follows lane b = w.follows lane b := fun lane b => by
    rw [follows, hbindings, follows]
  have hforeign : w₁.isForeign = w.isForeign := by
    funext b
    rw [isForeign, hclient, funext (hfollows · b), isForeign]
  have hmem : ∀ b ∈ w.listedOf w.client.system d, b ∈ w₁.members ∧ w.durationOf b = d := by
    rw [hmembers]
    exact fun b hb => mem_listedOf.mp hb
  have hnodup : (w.listedOf w.client.system d).Nodup := h.listing.nodup.filter _
  have hlanes : (w₁.client.lanes.map Lane.transition).Nodup := by
    apply List.Nodup.of_map fun r => (w.transitions.get r).duration
    rw [hclient, List.map_map]
    exact (List.map_congr_left h.wired.duration : w.client.lanes.map _ = _) ▸ h.wired.apart
  rw [dropped, hdue, if_pos rfl]
  cases hlist : w.listedOf w.client.system d with
  | nil =>
    obtain ⟨b, hb, hduration⟩ := List.mem_map.mp hd
    have := mem_listedOf.mpr ⟨hb, hduration⟩
    rw [hlist] at this
    cases this
  | cons b rest =>
    rw [hlist] at hmem hnodup
    -- Two bindings of a lane would be one, so only the first can be of a lane.
    have hrest : w₁.isForeign b = false → ∀ c ∈ rest, w₁.isForeign c = true := by
      rw [hforeign]
      intro hb c hc
      obtain ⟨lane, hlane, hfollows⟩ := isForeign_eq_false_iff.mp hb
      rw [hmembers, List.forall_mem_cons] at hmem
      have hduration := (h.wired.durationOf_of_follows hlane hfollows).symm.trans hmem.1.2
      rw [← Bool.not_eq_false]
      intro hhome
      have hsame := h.listing.single lane hlane b hmem.1.1 c (hmem.2 c hc).1 hfollows
        (h.wired.follows_of_home hlane ((hmem.2 c hc).2.trans hduration.symm) hhome)
      exact (List.nodup_cons.mp hnodup).1 (hsame ▸ hc)
    obtain ⟨r, w', hretire, hretired, hok, herror⟩ := retired_forM_retire
      (hmembers ▸ h.listing.nodup) hlanes (fun c hc => (hmem c hc).1) hnodup hrest
    rw [hclient] at hretire
    rw [hforeign] at hretired hok herror
    refine ⟨r, w', hretire, hretired.congr fun lane hlane => ?_, hok, fun fault hr => ?_⟩
    · rw [hclient] at hlane
      by_cases hduration : lane.duration = d
      · rw [hfollows, decide_eq_true hduration, leads_eq, hduration, hlist]
        rfl
      · rw [hfollows, decide_eq_false hduration, Bool.false_and, ← Bool.not_eq_true]
        intro hb
        apply hduration
        rw [← h.wired.durationOf_of_follows hlane hb, (hmem b List.mem_cons_self).2]
    · obtain ⟨c, hc, hcf, rfl⟩ := herror fault hr
      rw [hbindings]
      exact .inr ⟨c, hmembers ▸ (hmem c hc).1, hcf, rfl⟩

end Group

/-- An update handles the bindings of a duration, if its progress is not a fault. -/
theorem handled_settle_of_isOk (h : w.Tidy) (hd : d ∈ w.followed) (hp : (w.progress d).isOk = true) :
    ∃ r w', (settle w.client.system complete ⟨d, w.listedOf w.client.system d⟩).perform w = (r, w') ∧
      w.Handled w' [d] ∧
      (r.isOk = true → w.due d = true →
        ∀ b ∈ w.listedOf w.client.system d, w.isForeign b = false) ∧
      ∀ fault, r = .error fault → w.Blames fault := by
  have hreading : ∀ b ∈ w.listedOf w.client.system d,
      w.progress (w.durationOf b) = .ok (w.reading (w.durationOf b)) := by
    intro b hb
    rw [(mem_listedOf.mp hb).2]
    exact progress_eq_reading hp
  obtain ⟨w₁, hemits, hsystems, hdurations, hrun⟩ :=
    perform_settle_of_progress w (d := d) hreading
  have hkeeps : Keeps (fun v : World Hall => v.durations.next = w.durations.next)
      (settle w.client.system complete ⟨d, w.listedOf w.client.system d⟩) :=
    .settle (fun _ _ hv => hv) (fun _ _ hv => hv) (fun _ _ hv => hv)
      (fun b _ => keeps_next_complete _ b) fun _ _ hv => hv
  have hnext := hkeeps w rfl
  rw [hrun] at hnext ⊢
  cases hdue : w.due d with
  | false =>
    rw [← hdue]
    obtain ⟨w', hretire, hretired⟩ := retired_of_not_due hemits hsystems hdue
    rw [hretire] at hnext ⊢
    refine ⟨.ok (), w', rfl, .of_retired hemits hsystems hdurations hnext ?_, ?_, ?_⟩
    · simpa only [hdue, Bool.and_false, Bool.false_and] using hretired
    · rw [hdue]
      exact fun _ hd' => absurd hd' Bool.false_ne_true
    · exact fun _ hr => nomatch hr
  | true =>
    have hf : w.finished d = true := finished_of_due hdue
    obtain ⟨r, w', hretire, hretired, hok, herror⟩ := retired_of_due hemits hsystems h hd hdue
    rw [hdue, hf, if_pos rfl, hretire] at hnext
    rw [hf, if_pos rfl, hretire]
    refine ⟨r, w', rfl, .of_retired hemits hsystems hdurations hnext ?_, fun hr _ => hok hr, herror⟩
    simpa only [hdue, Bool.and_true] using hretired

/-- An update ends with a duration whose progress is a fault, and handles nothing of it. -/
theorem handled_settle (h : w.Tidy) (hd : d ∈ w.followed) :
    ∃ r w', (settle w.client.system complete ⟨d, w.listedOf w.client.system d⟩).perform w = (r, w') ∧
      w.Handled w' ([d].filter fun q => (w.progress q).isOk) ∧
      (r.isOk = true → (w.progress d).isOk = true ∧ (w.due d = true →
        ∀ b ∈ w.listedOf w.client.system d, w.isForeign b = false)) ∧
      ∀ fault, r = .error fault → w.Blames fault := by
  cases hp : w.progress d with
  | ok x =>
    have hok : (w.progress d).isOk = true := by rw [hp]; rfl
    obtain ⟨r, w', hrun, hhandled, hhome, herror⟩ := handled_settle_of_isOk h hd hok
    have hall : ([d].filter fun q => (w.progress q).isOk) = [d] := List.filter_cons_of_pos hok
    rw [hall]
    exact ⟨r, w', hrun, hhandled, fun hr => ⟨rfl, hhome hr⟩, herror⟩
  | error fault =>
    have hne := w.listedOf_ne_nil w.client.system d (List.mem_eraseDups.mpr hd)
    have hnone : ([d].filter fun q => (w.progress q).isOk) = [] :=
      List.filter_cons_of_neg (by rw [hp]; exact Bool.false_ne_true)
    rw [perform_settle_error w _ hne hp, hnone]
    refine ⟨.error fault, _, rfl, .of_emits (.looked w _ _) rfl rfl, (nomatch ·), fun e he => ?_⟩
    cases he
    exact .inl ⟨d, hd, hp⟩

theorem visited_subset (s : Ref System) (report : Ref Binding → Act Hall Unit) (w : World Hall)
    (gs : List Group) : ∀ d ∈ visited s report w gs, d ∈ gs.map Group.duration := by
  induction gs generalizing w with
  | nil => exact List.forall_mem_nil _
  | cons g rest ih =>
    rw [visited, List.map_cons, List.forall_mem_cons]
    refine ⟨List.mem_cons_self, ?_⟩
    split
    · next v _ => exact fun d hd => List.mem_cons_of_mem _ (ih v d hd)
    · exact List.forall_mem_nil _

/-- An update handles all durations that it gets to, as far as their progress is not a fault, and one
that gets through finds no foreign binding with a completion that is due. -/
theorem handled_forM_settle (h : w.Tidy) {s : Ref System} (hs : w.client.system = s)
    {ds : List (Ref Duration)} (hds : ds.Nodup) (hmem : ∀ d ∈ ds, d ∈ w.followed) :
    ∃ r w', ((w.groupsOf s ds).forM (settle s complete)).perform w = (r, w') ∧
      w.Handled w' ((visited s complete w (w.groupsOf s ds)).filter fun q =>
        (w.progress q).isOk) ∧
      (r.isOk = true → visited s complete w (w.groupsOf s ds) = ds ∧ ∀ d ∈ ds,
        (w.progress d).isOk = true ∧ (w.due d = true → ∀ b ∈ w.listedOf s d, w.isForeign b = false)) ∧
      ∀ fault, r = .error fault → w.Blames fault := by
  induction ds generalizing w with
  | nil =>
    exact ⟨.ok (), w, rfl, .of_emits (.refl w) rfl rfl, fun _ => ⟨rfl, List.forall_mem_nil _⟩,
      fun _ hr => by cases hr⟩
  | cons d rest ih =>
    rw [List.nodup_cons] at hds
    rw [List.forall_mem_cons] at hmem
    obtain ⟨r₁, w₁, hfirst, hhandled, hok, herror⟩ := handled_settle h hmem.1
    rw [hs] at hfirst hok
    rw [groupsOf, List.map_cons, visited, hfirst, List.forM_eq_forM, List.forM_cons, perform_bind,
      hfirst]
    cases r₁ with
    | error fault =>
      -- The update ends here, and what was handled before stays so.
      exact ⟨.error fault, w₁, rfl, hhandled, fun hr => absurd hr Bool.false_ne_true, herror⟩
    | ok =>
      have hd := hok rfl
      have hfilter : ∀ qs, (d :: qs).filter (fun q => (w.progress q).isOk) =
          d :: qs.filter fun q => (w.progress q).isOk := fun _ => List.filter_cons_of_pos hd.1
      rw [hfilter, List.filter_nil] at hhandled
      have hother := not_mem_singleton_of_mem hds.1
      have hsystem : w₁.client.system = s := by rw [hhandled.client, ← hs]
      have hlistedOf : ∀ q ∈ rest, w₁.listedOf s q = w.listedOf s q := fun q hq => by
        have := hhandled.listedOf (hother q hq)
        rwa [hsystem, hs] at this
      have hgroups : w₁.groupsOf s rest = w.groupsOf s rest :=
        List.map_congr_left fun q hq => by rw [hlistedOf q hq]
      -- Handling one duration leaves the gallery in order for the next.
      obtain ⟨r, w₂, hrest, hhandled', hok', herror'⟩ := ih (hhandled.tidy h) hsystem hds.2
        fun q hq => hhandled.mem_followed (hother q hq) (hmem.2 q hq)
      rw [hgroups] at hrest hhandled' hok'
      simp only [hhandled.progress] at hhandled' hok'
      refine ⟨r, w₂, hrest, ?_, fun hr => ?_, fun fault hr => ?_⟩
      · dsimp only
        rw [hfilter]
        refine hhandled.cons (fun hvisited => hds.1 ?_) hhandled'
        simpa using visited_subset _ _ _ _ _ (List.mem_of_mem_filter hvisited)
      · obtain ⟨hvisited, hrest⟩ := hok' hr
        refine ⟨congrArg (d :: ·) hvisited, List.forall_mem_cons.mpr ⟨hd, fun q hq => ?_⟩⟩
        have := hrest q hq
        rwa [hhandled.due (hother q hq), hlistedOf q hq, hhandled.isForeign] at this
      · exact hhandled.blames (herror' fault hr)

end Act

end Tween
