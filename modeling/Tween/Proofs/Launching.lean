import Tween.Proofs.Resting

namespace Tween

namespace World

open Gallery Act

variable {w w₁ w' : World Hall} {lane : Lane}

/-- In `w'` bindings of some lanes are listed after those of `w`, which are what they were. -/
structure Appended (w w' : World Hall) (lanes : List Lane) : Prop where
  listed : ∃ new, w'.members = w.members ++ new ∧ new.map w'.bindings.get = lanes.map Lane.binding ∧
    ∀ b ∈ new, b.index < w'.bindings.next
  bindings : ∀ b : Ref Binding, b.index < w.bindings.next → w'.bindings.get b = w.bindings.get b
  next_le : w.bindings.next ≤ w'.bindings.next

namespace Appended

theorem of_eq (hmembers : w'.members = w.members) (hbindings : w'.bindings = w.bindings) :
    w.Appended w' [] where
  listed := ⟨[], by rw [hmembers, List.append_nil], rfl, List.forall_mem_nil _⟩
  bindings b _ := by rw [hbindings]
  next_le := by rw [hbindings]

theorem enlisted (w : World Hall) (lane : Lane) : w.Appended (w.enlisted lane.binding) [lane] where
  listed := by
    refine ⟨[⟨w.bindings.next⟩], members_enlisted w lane.binding, ?_, ?_⟩
    · exact congrArg ([·]) (w.bindings.get_add_self lane.binding)
    · rw [List.forall_mem_singleton]
      exact Nat.lt_succ_self _
  bindings _ hb := w.bindings.get_add_of_lt lane.binding hb
  next_le := Nat.le_succ _

theorem trans {front rest : List Lane} (h : w.Appended w₁ front) (h' : w₁.Appended w' rest) :
    w.Appended w' (front ++ rest) where
  listed := by
    obtain ⟨new, hmembers, hnew, hknown⟩ := h.listed
    obtain ⟨later, hmembers', hlater, hknown'⟩ := h'.listed
    refine ⟨new ++ later, by rw [hmembers', hmembers, List.append_assoc], ?_, ?_⟩
    · rw [List.map_append, List.map_append, hlater, ← hnew]
      congr 1
      apply List.map_congr_left
      intro b hb
      exact h'.bindings b (hknown b hb)
    · rw [List.forall_mem_append]
      exact ⟨fun b hb => (hknown b hb).trans_le h'.next_le, hknown'⟩
  bindings b hb := (h'.bindings b (hb.trans_le h.next_le)).trans (h.bindings b hb)
  next_le := h.next_le.trans h'.next_le

theorem bound {lanes : List Lane} (h : w.Appended w' lanes) (hl : w.Listing)
    (hne : ∀ sent ∈ lanes, sent.transition ≠ lane.transition) : w'.bound lane = w.bound lane := by
  obtain ⟨new, hmembers, hnew, -⟩ := h.listed
  have hnone : (new.any fun b => (w'.bindings.get b).transition = lane.transition) = false := by
    have : ((new.map w'.bindings.get).any fun x => x.transition = lane.transition) = false := by
      rw [hnew, List.any_map, List.any_eq_false]
      exact fun sent hsent heq => hne sent hsent (of_decide_eq_true heq)
    rwa [List.any_map] at this
  rw [World.bound, hmembers, List.any_append, hnone, Bool.or_false, World.bound]
  rw [Bool.eq_iff_iff, List.any_eq_true, List.any_eq_true]
  refine exists_congr fun b => and_congr_right fun hb => ?_
  rw [h.bindings b (hl.known b hb).1]

end Appended

/-- The world `w'` is `w` once some lanes have been launched, each from its current value to the end
that it was not heading to, and bound unless they were. -/
structure Sent (w w' : World Hall) (lanes : List Lane) : Prop where
  frame : w' = { w with
    durations := w'.durations, transitions := w'.transitions, bindings := w'.bindings
    systems := w'.systems, journal := w'.journal }
  tidy : w'.Tidy
  duration : ∀ lane ∈ lanes, w'.durations.get lane.duration =
    { w.durations.get lane.duration with timer := ⟨some (w.nowOf lane.duration), true, false⟩ }
  transition : ∀ lane ∈ lanes, ∃ x, w.value lane.transition = .ok x ∧
    w'.transitions.get lane.transition =
      { w.transitions.get lane.transition with start := x, finish := w.farEnd lane }
  spares : ∀ lane ∈ w.client.lanes, (∀ sent ∈ lanes, sent.duration ≠ lane.duration) →
    w.Spares w' lane
  appended : w.Appended w' (lanes.filter (!w.bound ·))

theorem Spares.nowOf (h : w.Spares w' lane) : w'.nowOf lane.duration = w.nowOf lane.duration := by
  rw [World.nowOf, h.duration, h.frame]
  rfl

theorem Spares.farEnd (h : w.Spares w' lane) : w'.farEnd lane = w.farEnd lane := by
  rw [World.farEnd, destination, h.transition, h.timer, ← destination, ← World.farEnd]

namespace Sent

theorem nil (h : w.Tidy) : w.Sent w [] where
  frame := rfl
  tidy := h
  duration := List.forall_mem_nil _
  transition := List.forall_mem_nil _
  spares lane _ _ := .refl w lane
  appended := .of_eq rfl rfl

theorem cons {a : Lane} {rest : List Lane} (hw : w.Tidy)
    (hsub : (a :: rest).Sublist w.client.lanes) (h : w.Sent w₁ [a]) (h' : w₁.Sent w' rest) :
    w.Sent w' (a :: rest) := by
  have hlanes : w₁.client.lanes = w.client.lanes := by rw [h.frame]
  have hmem := hsub.subset
  have hapart := hw.wired.apart.sublist (hsub.map Lane.duration)
  rw [List.map_cons, List.nodup_cons] at hapart
  have hne : ∀ lane ∈ rest, a.duration ≠ lane.duration := fun lane hlane heq =>
    hapart.1 (heq ▸ List.mem_map_of_mem hlane)
  -- What is launched later finds its lane as it was, and leaves the first one as it is.
  have hlater : ∀ lane ∈ rest, w.Spares w₁ lane := fun lane hlane =>
    h.spares lane (hmem (List.mem_cons_of_mem a hlane)) (by simpa using hne lane hlane)
  have hfirst : w₁.Spares w' a :=
    h'.spares a (hlanes ▸ hmem List.mem_cons_self) fun lane hlane => (hne lane hlane).symm
  refine ⟨?_, h'.tidy, ?_, ?_, fun lane hlane hout => ?_, ?_⟩
  · rw [h'.frame, h.frame]
  · rw [List.forall_mem_cons]
    refine ⟨hfirst.duration.trans (h.duration a List.mem_cons_self), fun lane hlane => ?_⟩
    rw [h'.duration lane hlane, (hlater lane hlane).duration, (hlater lane hlane).nowOf]
  · rw [List.forall_mem_cons]
    refine ⟨?_, fun lane hlane => ?_⟩
    · obtain ⟨x, hx, ht⟩ := h.transition a List.mem_cons_self
      exact ⟨x, hx, hfirst.transition.trans ht⟩
    · obtain ⟨x, hx, ht⟩ := h'.transition lane hlane
      have hduration := hw.wired.duration lane (hmem (List.mem_cons_of_mem a hlane))
      rw [(hlater lane hlane).value hduration] at hx
      rw [(hlater lane hlane).transition, (hlater lane hlane).farEnd] at ht
      exact ⟨x, hx, ht⟩
  · rw [List.forall_mem_cons] at hout
    have hother : w.Spares w₁ lane := h.spares lane hlane (by simpa using hout.1)
    exact hother.trans (h'.spares lane (hlanes ▸ hlane) hout.2)
  · have hbound : rest.filter (!w₁.bound ·) = rest.filter (!w.bound ·) := by
      apply List.filter_congr
      intro lane hlane
      rw [h.appended.bound hw.listing fun sent hsent heq => ?_]
      obtain rfl := List.mem_singleton.mp (List.mem_of_mem_filter hsent)
      apply hne lane hlane
      rw [← hw.wired.duration sent (hmem List.mem_cons_self), heq,
        hw.wired.duration lane (hmem (List.mem_cons_of_mem sent hlane))]
    have := h.appended.trans h'.appended
    rwa [hbound, ← List.filter_append] at this

section

variable {lanes : List Lane} (h : w.Sent w' lanes) (hlane : lane ∈ lanes)
include h hlane

theorem timer : w'.timer lane.duration = ⟨some (w.nowOf lane.duration), true, false⟩ :=
  congrArg Duration.timer (h.duration lane hlane)

theorem nowOf : w'.nowOf lane.duration = w.nowOf lane.duration := by
  rw [World.nowOf, h.duration lane hlane, h.frame]
  rfl

theorem elapsed : w'.elapsed lane.duration = some 0 := by
  rw [World.elapsed, h.timer hlane, h.nowOf hlane, Timer.elapsed, Option.map_some, Int.sub_self]

theorem phase : w'.phase lane.duration = .running := by
  have helapsed := h.elapsed hlane
  have hlength := w'.one_le_length lane.duration
  rw [World.elapsed] at helapsed
  rw [phase_eq_running_iff, finished, Timer.finished, helapsed, Option.all_some,
    decide_eq_false_iff_not]
  omega

end

end Sent

end World

namespace Gallery

open World Act

variable {w w' : World Hall} {lane : Lane}

/-- Before it binds the lane, a launch touches neither bindings nor lists. -/
theorem perform_launchLane {x : Float} (hx : w.value lane.transition = .ok x) :
    ∃ v, (launchLane lane).perform w = (bindLane lane).perform v ∧ v = { w with
      durations := v.durations, transitions := v.transitions, journal := v.journal } := by
  have hvalue := perform_value w lane.transition
  rw [hx] at hvalue
  have hsent : ∀ v : World Hall, v = { w with durations := v.durations, journal := v.journal } →
      ∃ v', ((do
        animate lane.animation [x, w.farEnd lane]
        bindLane lane) : Act Hall Unit).perform v = (bindLane lane).perform v' ∧ v' = { w with
          durations := v'.durations, transitions := v'.transitions, journal := v'.journal } := by
    intro v hv
    refine ⟨_, perform_bind_ok _ rfl, ?_⟩
    rw [hv]
  rw [launchLane, perform_bind_ok _ hvalue, perform_get_bind]
  dsimp only
  split
  · rw [perform_bind_ok _ (perform_reverse _ _)]
    exact hsent _ rfl
  · exact hsent _ rfl

theorem exists_value_of_launchLane (h : ((launchLane lane).perform w).1 = .ok ()) :
    ∃ x, w.value lane.transition = .ok x := by
  obtain ⟨x, v, hvalue, -⟩ := perform_bind_inv h
  rw [perform_value] at hvalue
  exact ⟨x, congrArg Prod.fst hvalue⟩

theorem sent_launchLane (h : w.Tidy) (hlane : lane ∈ w.client.lanes)
    (hrun : (launchLane lane).perform w = (.ok (), w')) : w.Sent w' [lane] := by
  obtain ⟨x, hx⟩ := exists_value_of_launchLane (congrArg Prod.fst hrun)
  obtain ⟨u, hlaunch, hl⟩ := launched_launchLane hx
  obtain rfl := (Prod.mk.inj (hrun.symm.trans hlaunch)).2
  have hkept := Kept.launchLane h hlane
  rw [hrun] at hkept
  refine ⟨hl.frame, hkept.tidy, ?_, ?_, fun other hother hne => ?_, ?_⟩
  · rw [List.forall_mem_singleton, hl.durations, if_pos rfl]
  · rw [List.forall_mem_singleton]
    exact ⟨x, hx, by rw [hl.transitions, if_pos rfl]⟩
  · have hduration := hne lane (List.mem_singleton_self lane)
    apply hl.spares hduration
    intro heq
    apply hduration
    rw [← h.wired.duration lane hlane, heq, h.wired.duration other hother]
  · obtain ⟨v, hbind, hframe⟩ := perform_launchLane hx
    have hbound : v.bound lane = w.bound lane := by
      rw [hframe]
      rfl
    have hmembers : v.members = w.members := by
      rw [hframe]
      rfl
    have hbindings : v.bindings = w.bindings := by rw [hframe]
    rw [hrun, perform_bindLane, hbound] at hbind
    obtain rfl := (Prod.mk.inj hbind).2
    -- A lane that was bound before is not appended.
    rw [List.filter_singleton]
    cases w.bound lane with
    | true => exact .of_eq hmembers hbindings
    | false =>
      have := (Appended.of_eq hmembers hbindings).trans (Appended.enlisted v lane)
      exact this

/-- By induction on the lanes: the first one is launched, and the others find their own as it was. -/
theorem sent_forM {lanes : List Lane} (h : w.Tidy) (hsub : lanes.Sublist w.client.lanes)
    (hrun : (lanes.forM launchLane).perform w = (.ok (), w')) : w.Sent w' lanes := by
  induction lanes generalizing w with
  | nil =>
    cases hrun
    exact .nil h
  | cons a rest ih =>
    rw [List.forM_eq_forM, List.forM_cons] at hrun
    obtain ⟨_, v, hfirst, -⟩ := perform_bind_inv (congrArg Prod.fst hrun)
    rw [perform_bind_ok _ hfirst] at hrun
    have hsent := sent_launchLane h (hsub.subset List.mem_cons_self) hfirst
    have hlanes : v.client.lanes = w.client.lanes := by rw [hsent.frame]
    exact .cons h hsub hsent (ih hsent.tidy (hlanes ▸ List.sublist_of_cons_sublist hsub) hrun)

theorem sent_launch (h : w.Tidy) (hok : (move w .launch).1.isOk = true) :
    w.Sent (move w .launch).2 w.client.lanes := by
  rw [move_of_make launch rfl] at hok ⊢
  apply sent_forM h (.refl _)
  change launch.perform w = _
  refine Prod.ext ?_ rfl
  cases hrun : (launch.perform w).1 with
  | ok => rfl
  | error fault =>
    rw [hrun] at hok
    cases hok

end Gallery

end Tween
