import Tween.Proofs.Lanes

namespace Tween

namespace Gallery

open World Act

def Move.isLaunch : Move → Bool
  | .launch => true
  | _ => false

def Move.isForeign : Move → Bool
  | .bindForeign _ => true
  | _ => false

/-- Whether a move builds a foreign transition on a duration that is there already. -/
def Move.disturbs (d : Ref Duration) : Move → Bool
  | .bindForeign ⟨_, _, .own _ _ (.shared q)⟩ => q = d
  | _ => false

theorem Move.disturbs_of_isForeign {m : Move} (h : m.isForeign = false) (d : Ref Duration) :
    m.disturbs d = false := by
  cases m with
  | bindForeign => cases h
  | _ => rfl

theorem perform_bindLane (lane : Lane) (w : World Hall) :
    (bindLane lane).perform w =
      (.ok (), if w.bound lane then w else w.enlisted lane.binding) := by
  rw [bindLane, perform_get_bind]
  change (if (!w.bound lane) = true then _ else _ : Act Hall Unit).perform w = _
  cases w.bound lane <;> rfl

theorem moves_keep {P : World Hall → Prop} {ms : List Move}
    (hmove : ∀ m ∈ ms, ∀ v, P v → P (move v m).2) {w : World Hall} (h : P w) : P (moves w ms) :=
  List.foldlRecOn ms _ h fun v hv m hm => hmove m hm v hv

theorem moves_induction {P : List Move → World Hall → Prop} {w : World Hall} {ms : List Move}
    (h : P [] w) (hmove : ∀ past m rest, ms = past ++ m :: rest → P past (moves w past) →
      P (past ++ [m]) (move (moves w past) m).2) : P ms (moves w ms) := by
  induction ms using List.reverseRecOn with
  | nil => exact h
  | append_singleton past m ih =>
    rw [moves, List.foldl_append]
    refine hmove past m [] rfl (ih fun front n rest heq hfront => ?_)
    exact hmove front n (rest ++ [m]) (by rw [heq, List.append_assoc]; rfl) hfront

theorem frame_advanceClock (w : World Hall) (ms : Int) :
    ((advanceClock ms).perform w).2 = { w with
      monotonic := ((advanceClock ms).perform w).2.monotonic
      clocks := ((advanceClock ms).perform w).2.clocks } := by
  rw [advanceClock, perform_get_bind]
  split
  · rw [perform_bind_pure, perform_advance]
    split <;> rfl
  · rfl

theorem frame_setClock (w : World Hall) (now : Int) :
    ((setClock now).perform w).2 = { w with
      monotonic := ((setClock now).perform w).2.monotonic
      clocks := ((setClock now).perform w).2.clocks } := by
  rw [setClock, perform_get_bind]
  split <;> rfl

structure Bound (w w' : World Hall) (lane : Lane) : Prop where
  frame : w' = { w with bindings := w'.bindings, systems := w'.systems }
  listing : w'.Listing
  grows : w.Extends w'
  bound : ∀ a ∈ w.client.lanes, w'.bound a = (w.bound a || decide (lane = a))
  members : ∀ b ∈ w'.members, b ∈ w.members ∨ w'.follows lane b = true

theorem bound_bindLane {w : World Hall} (h : w.Listing) (hw : w.Wired w.client.lanes) {lane : Lane}
    (hlane : lane ∈ w.client.lanes) :
    ∃ w', (bindLane lane).perform w = (.ok (), w') ∧ Bound w w' lane := by
  have hinj : ∀ a ∈ w.client.lanes, lane.transition = a.transition ↔ lane = a := by
    refine fun a ha => ⟨fun heq => ?_, fun heq => by rw [heq]⟩
    apply hw.eq_of_duration hlane ha
    rw [← hw.duration lane hlane, heq, hw.duration a ha]
  rw [perform_bindLane]
  refine ⟨_, rfl, ?_⟩
  split
  · next hbound =>
    refine ⟨rfl, h, .refl w, fun a _ => ?_, fun b hb => .inl hb⟩
    by_cases heq : lane = a
    · rw [← heq, hbound]
      rfl
    · rw [decide_eq_false heq, Bool.or_false]
  · next hbound =>
    rw [Bool.not_eq_true] at hbound
    refine ⟨rfl, h.enlisted lane.binding (hw.known lane hlane).2.1 fun a ha heq => ?_,
      .enlisted w lane.binding, fun a ha => ?_, fun b hb => ?_⟩
    · rw [← (hinj a ha).mp heq]
      exact ⟨rfl, hbound⟩
    · rw [bound_enlisted h, ← decide_eq_decide.mpr (hinj a ha)]
      rfl
    · rw [members_enlisted] at hb
      refine (List.mem_append.mp hb).imp_right fun hb => ?_
      obtain rfl := List.mem_singleton.mp hb
      rw [(follows_enlisted h lane.binding lane).2]
      exact decide_eq_true rfl

/-- What everything but the update keeps in a move: counts stay, and only a launch makes completions
pending. -/
structure Kept (m : Move) (w w' : World Hall) : Prop where
  tidy : w'.Tidy
  lanes : w'.client.lanes = w.client.lanes
  pending : ∀ lane ∈ w.client.lanes,
    (w'.timer lane.duration).pending = (w.timer lane.duration).pending ∨
      m.isLaunch = true ∧ (w'.timer lane.duration).pending = true
  undisturbed : ∀ lane ∈ w.client.lanes, m.disturbs lane.duration = false →
    w.Undisturbed lane → w'.Undisturbed lane
  home : m.isForeign = false → (∀ b ∈ w.members, w.isForeign b = false) →
    ∀ b ∈ w'.members, w'.isForeign b = false

namespace Kept

variable {m : Move} {w w' w₁ w₂ : World Hall} {α β : Type}

theorem refl (h : w.Tidy) : Kept m w w :=
  ⟨h, rfl, fun _ _ => .inl rfl, fun _ _ _ => id, fun _ => id⟩

theorem trans (h : Kept m w w₁) (h' : Kept m w₁ w₂) : Kept m w w₂ where
  tidy := h'.tidy
  lanes := h'.lanes.trans h.lanes
  pending := by
    intro lane hlane
    rcases h'.pending lane (h.lanes ▸ hlane) with heq | hlaunch
    · rw [heq]
      exact h.pending lane hlane
    · exact .inr hlaunch
  undisturbed lane hlane hm :=
    h'.undisturbed lane (h.lanes ▸ hlane) hm ∘ h.undisturbed lane hlane hm
  home hm := h'.home hm ∘ h.home hm

theorem homely (h : Kept m w w') (hm : m.isForeign = false) (hh : w.Homely) : w'.Homely where
  home := h.home hm hh.home
  undisturbed := by
    rw [h.lanes]
    exact fun lane hlane =>
      h.undisturbed lane hlane (Move.disturbs_of_isForeign hm _) (hh.undisturbed lane hlane)

theorem bind {act : Act Hall α} {f : α → Act Hall β} (h : Kept m w (act.perform w).2)
    (hf : ∀ a v, Kept m w v → Kept m v ((f a).perform v).2) :
    Kept m w ((act >>= f).perform w).2 := by
  rw [perform_bind]
  rcases hact : act.perform w with ⟨_ | a, v⟩
  · rw [hact] at h
    exact h
  · rw [hact] at h
    exact h.trans (hf a v h)

theorem forM {f : α → Act Hall Unit} {xs : List α} (h : w.Tidy)
    (hf : ∀ x ∈ xs, ∀ v, Kept m w v → Kept m v ((f x).perform v).2) :
    Kept m w ((xs.forM f).perform w).2 := by
  suffices hall : ∀ v, Kept m w v → Kept m v ((xs.forM f).perform v).2 from hall w (refl h)
  induction xs with
  | nil => exact fun v hv => refl hv.tidy
  | cons x rest ih =>
    intro v hv
    rw [List.forall_mem_cons] at hf
    rw [List.forM_eq_forM, List.forM_cons]
    exact bind (hf.1 v hv) fun _ v' hv' => ih hf.2 v' (hv.trans hv')

/-- Contents may change, as long as easings stay curves and the lanes' completions as they are. -/
theorem of_extends (h : w.Tidy) (e : w.Extends w') (hlanes : w'.client.lanes = w.client.lanes)
    (hmembers : w'.members = w.members) (hnext : w'.transitions.next = w.transitions.next)
    (htimer : ∀ lane ∈ w.client.lanes,
      (w'.timer lane.duration).pending = (w.timer lane.duration).pending ∧
        ((w'.timer lane.duration).pending = true →
          (w'.timer lane.duration).startedAt.isSome = true))
    (hdescribed : ∀ lane ∈ w.client.lanes,
      (w'.descriptions.get lane.setting).value.easing.isCurve = true) : Kept m w w' where
  tidy := h.extended e hmembers htimer hdescribed
  lanes := hlanes
  pending lane hlane := .inl (htimer lane hlane).1
  undisturbed lane hlane _ hu := by
    refine hu.extended e hnext fun hbound => ?_
    rw [h.listing.bound_extended e hmembers] at hbound
    rw [(htimer lane hlane).1, hu.pending hbound]
  home _ hh := by
    rw [hmembers]
    intro b hb
    rw [h.listing.isForeign_extended e hb, hh b hb]

theorem of_frame (h : w.Tidy) (hw : w' = { w with
    monotonic := w'.monotonic, clocks := w'.clocks, lengths := w'.lengths
    targets := w'.targets, journal := w'.journal
    client := { w.client with length := w'.client.length, clock := w'.client.clock } }) :
    Kept m w w' := by
  rw [hw]
  exact of_extends h { Extends.refl w with } rfl rfl rfl
    (fun lane hlane => ⟨rfl, h.started lane hlane⟩) h.described

theorem looked (h : w.Tidy) (d : Ref Duration) (count : Nat) : Kept m w (w.looked d count) :=
  of_frame h rfl

theorem withTimer (h : w.Tidy) (d : Ref Duration) {f : Timer → Timer}
    (hpending : (f (w.timer d)).pending = (w.timer d).pending)
    (hstarted : (f (w.timer d)).startedAt.isSome = true) : Kept m w (w.withTimer d f) := by
  refine of_extends h (.withTimer w d f) rfl rfl rfl (fun lane hlane => ?_) h.described
  rw [timer_withTimer]
  split
  · next heq =>
    subst heq
    exact ⟨hpending, fun _ => hstarted⟩
  · exact ⟨rfl, h.started lane hlane⟩

theorem reverse (h : w.Tidy) (d : Ref Duration) :
    Kept m w ((Act.reverse d).perform w).2 := by
  rw [perform_reverse]
  have hlooked := looked (m := m) h d 1
  dsimp only
  exact hlooked.trans (withTimer hlooked.tidy d rfl rfl)

theorem setDescriptionText (h : w.Tidy) (r : Ref (Setting Description)) (text : String) :
    Kept m w ((Act.setDescriptionText r text).perform w).2 := by
  rw [perform_setDescriptionText]
  rcases hread : Description.read? text with _ | _ | a
  · exact refl h
  · exact of_frame h rfl
  · refine of_extends h { Extends.refl w with } rfl rfl rfl
      (fun lane hlane => ⟨rfl, h.started lane hlane⟩) fun lane hlane => ?_
    change ((w.descriptions.set r _).get lane.setting).value.easing.isCurve = true
    rw [Store.get_set]
    split
    · exact Description.isCurve_of_read? hread
    · exact h.described lane hlane

theorem setEnds (h : w.Tidy) (r : Ref Transition) (start finish : Float) :
    Kept m w ((Act.setEnds r start finish).perform w).2 :=
  of_extends h (.setEnds w r start finish) rfl rfl rfl
    (fun lane hlane => ⟨rfl, h.started lane hlane⟩) h.described

theorem startAndBind (h : w.Tidy) {lane : Lane} (hlane : lane ∈ w.client.lanes) :
    Kept .launch w ((do
      start lane.duration
      bindLane lane).perform w).2 := by
  -- In between, the lane is pending but need not be bound, so the world is not tidy there.
  rw [perform_bind_ok _ (perform_start lane.duration w)]
  generalize hv : w.withTimer lane.duration (·.start (w.nowOf lane.duration)) = v
  have e : w.Extends v := hv ▸ .withTimer w _ _
  have hmembers : v.members = w.members := by rw [← hv]; rfl
  have hlanes : v.client.lanes = w.client.lanes := by rw [← hv]; rfl
  have hwired : v.Wired v.client.lanes := h.wired.extended e
  have hlisting : v.Listing := h.listing.extended e (hmembers ▸ List.Sublist.refl _)
  obtain ⟨v', hbind, hbound⟩ := bound_bindLane hlisting hwired (hlanes ▸ hlane)
  rw [hbind]
  have hlanes' : v'.client.lanes = w.client.lanes := by rw [hbound.frame, ← hlanes]
  have htimer : ∀ d, v'.timer d = if lane.duration = d then
      (w.timer d).start (w.nowOf lane.duration) else w.timer d := by
    intro d
    rw [timer, show v'.durations = v.durations by rw [hbound.frame], ← hv, ← timer, timer_withTimer]
  have hdescriptions : v'.descriptions = w.descriptions := by rw [hbound.frame, ← hv]; rfl
  have hbinds : ∀ a ∈ w.client.lanes, v'.bound a = (w.bound a || decide (lane = a)) := by
    intro a ha
    rw [hbound.bound a (hlanes ▸ ha), h.listing.bound_extended e hmembers]
  have hwired' : v'.Wired v'.client.lanes := hwired.extended hbound.grows
  refine ⟨⟨hwired', hbound.listing, ?_, ?_, ?_⟩, hlanes', ?_, ?_, ?_⟩
  · rw [hlanes']
    intro a ha hpending
    rw [hbinds a ha, Bool.or_eq_true, decide_eq_true_iff]
    rw [htimer] at hpending
    split at hpending
    · next heq => exact .inr (h.wired.eq_of_duration hlane ha heq)
    · exact .inl (h.bound a ha hpending)
  · rw [hlanes']
    intro a ha
    rw [htimer]
    split
    · exact fun _ => rfl
    · exact h.started a ha
  · rw [hlanes', hdescriptions]
    exact h.described
  · intro a _
    rw [htimer]
    split
    · exact .inr ⟨rfl, rfl⟩
    · exact .inl rfl
  · intro a ha _ hu
    have htransitions : v'.transitions = w.transitions := by rw [hbound.frame, ← hv]; rfl
    refine ⟨htransitions ▸ hu.alone, fun hb => ?_⟩
    rw [htimer]
    split
    · rfl
    · next hne =>
      rw [hbinds a ha, decide_eq_false fun heq => hne (by rw [heq]), Bool.or_false] at hb
      exact hu.pending hb
  · intro _ hh b hb
    rcases hbound.members b hb with hb | hfollows
    · rw [hlisting.isForeign_extended hbound.grows hb,
        h.listing.isForeign_extended e (hmembers ▸ hb), hh b (hmembers ▸ hb)]
    · exact isForeign_eq_false_iff.mpr ⟨lane, hlanes' ▸ hlane, hfollows⟩

theorem launchLane (h : w.Tidy) {lane : Lane} (hlane : lane ∈ w.client.lanes) :
    Kept .launch w ((Gallery.launchLane lane).perform w).2 := by
  -- Wherever it is sent from and to, the lane ends up started and bound.
  have hsent : ∀ v, Kept .launch w v → ∀ start finish, Kept .launch v ((do
      animate lane.animation [start, finish]
      Gallery.bindLane lane).perform v).2 := by
    intro v hv start finish
    have hends := setEnds (m := .launch) hv.tidy lane.transition start finish
    exact hends.trans (startAndBind hends.tidy (hends.lanes ▸ hv.lanes ▸ hlane))
  unfold Gallery.launchLane
  refine bind ?_ fun current v hv => ?_
  · rw [perform_value]
    exact looked h _ _
  · rw [perform_get_bind]
    dsimp only
    split
    · refine bind (reverse hv.tidy _) fun _ v' hv' => hsent v' (hv.trans hv') _ _
    · exact hsent v hv _ _

theorem launch (h : w.Tidy) : Kept .launch w (Gallery.launch.perform w).2 := by
  rw [Gallery.launch, perform_get_bind]
  exact forM h fun lane hlane v hv => launchLane hv.tidy (hv.lanes ▸ hlane)

theorem reverseRunning (h : w.Tidy) (lane : Lane) :
    Kept m w ((phase lane.duration >>= fun phase =>
      if phase = .running then reverseLane lane else pure ()).perform w).2 := by
  refine bind ?_ fun phase v hv => ?_
  · rw [perform_phase]
    exact looked h _ _
  · split
    · exact reverse hv.tidy lane.duration
    · exact refl hv.tidy

theorem reverseAll (h : w.Tidy) : Kept m w (Gallery.reverseAll.perform w).2 := by
  rw [Gallery.reverseAll, perform_get_bind]
  exact forM h fun lane _ v hv => reverseRunning hv.tidy lane

theorem configureLane (h : w.Tidy) (lane : Lane) (text : String) :
    Kept m w ((Gallery.configureLane lane text).perform w).2 :=
  setDescriptionText h lane.setting text

theorem setLength (h : w.Tidy) (length : Int) :
    Kept m w ((Gallery.setLength length).perform w).2 := by
  unfold Gallery.setLength
  refine bind ?_ fun _ v hv => ?_
  · rw [perform_modify]
    exact of_frame h rfl
  · rw [perform_get_bind]
    refine bind (forM hv.tidy fun lane _ v' hv' => ?_) fun _ v' hv' => of_frame hv'.tidy rfl
    rw [perform_get_bind]
    exact bind (configureLane hv'.tidy lane _) fun _ u hu => refl hu.tidy

theorem advanceClock (h : w.Tidy) (ms : Int) : Kept m w ((Gallery.advanceClock ms).perform w).2 := by
  rw [Gallery.advanceClock, perform_get_bind]
  split
  · next r _ =>
    refine bind ?_ fun _ v hv => refl hv.tidy
    rw [perform_advance]
    split
    · exact refl h
    · exact of_frame h rfl
  · exact of_frame h rfl

theorem setClock (h : w.Tidy) (now : Int) : Kept m w ((Gallery.setClock now).perform w).2 := by
  rw [Gallery.setClock, perform_get_bind]
  split
  · exact of_frame h rfl
  · exact of_frame h rfl

theorem addDuration (h : w.Tidy) (x : Duration) :
    Kept m w { w with durations := (w.durations.add x).2 } := by
  refine of_extends h (.addDuration w x) rfl rfl rfl (fun lane hlane => ?_) h.described
  rw [timer, w.durations.get_add_of_lt x (h.wired.known lane hlane).1]
  exact ⟨rfl, h.started lane hlane⟩

/-- A new transition disturbs the lane with whose duration it goes. -/
theorem addTransition (h : w.Tidy) (x : Transition)
    (hdisturbs : ∀ lane ∈ w.client.lanes, m.disturbs lane.duration = false →
      x.duration ≠ lane.duration) :
    Kept m w { w with transitions := (w.transitions.add x).2 } := by
  have e := Extends.addTransition w x
  refine ⟨h.extended e rfl (fun lane hlane => ⟨rfl, h.started lane hlane⟩) h.described, rfl,
    fun _ _ => .inl rfl, fun lane hlane hd hu => ⟨fun r hr hduration => ?_, hu.pending⟩,
    fun _ hh b hb => (h.listing.isForeign_extended e hb).trans (hh b hb)⟩
  rcases Nat.lt_succ_iff_lt_or_eq.mp hr with hr | hr
  · rw [e.duration r hr] at hduration
    exact hu.alone r hr hduration
  · obtain rfl : r = ⟨w.transitions.next⟩ := Ref.ext hr
    exact absurd ((congrArg Transition.duration (w.transitions.get_add_self x)).symm.trans hduration)
      (hdisturbs lane hlane hd)

theorem addDescription (h : w.Tidy) (x : Setting Description) :
    Kept m w { w with descriptions := (w.descriptions.add x).2 } := by
  refine of_extends h (.addDescription w x) rfl rfl rfl
    (fun lane hlane => ⟨rfl, h.started lane hlane⟩) fun lane hlane => ?_
  rw [w.descriptions.get_add_of_lt x (h.wired.known lane hlane).2.2]
  exact h.described lane hlane

theorem enlisted (h : w.Tidy) {binding : Binding} (hm : m.isForeign = true)
    (hknown : binding.transition.index < w.transitions.next)
    (hlanes : ∀ lane ∈ w.client.lanes, binding.transition ≠ lane.transition) :
    Kept m w (w.enlisted binding) := by
  have hbound : ∀ lane ∈ w.client.lanes, (w.enlisted binding).bound lane = w.bound lane := by
    intro lane hlane
    rw [bound_enlisted h.listing, decide_eq_false (hlanes lane hlane), Bool.or_false]
  refine ⟨⟨h.wired.extended (.enlisted w binding), h.listing.enlisted binding hknown
    fun lane hlane heq => absurd heq (hlanes lane hlane), fun lane hlane => ?_, h.started,
    h.described⟩, rfl, fun _ _ => .inl rfl, fun lane hlane _ hu => ⟨hu.alone, ?_⟩, ?_⟩
  · rw [hbound lane hlane]
    exact h.bound lane hlane
  · rw [hbound lane hlane]
    exact hu.pending
  · rw [hm]
    exact nofun

/-- Settings and durations that are made for a foreign binding are none of a lane. -/
theorem tempo (h : w.Tidy) (t : Tempo) :
    ∃ d w', t.duration.perform w = (.ok d, w') ∧ Kept m w w' ∧
      (∀ lane ∈ w.client.lanes, d = lane.duration → t = .shared lane.duration) := by
  cases t with
  | shared d => exact ⟨d, w, rfl, refl h, fun lane _ heq => by rw [heq]⟩
  | own n =>
    have hsource : ∃ source v, n.gauge.source.perform w = (.ok source, v) ∧ Kept m w v ∧
        v.durations = w.durations := by
      cases n.gauge with
      | shared => exact ⟨_, _, rfl, refl h, rfl⟩
      | length s =>
        exact ⟨_, { w with lengths := (w.lengths.add s).2 }, rfl, of_frame h rfl, rfl⟩
      | description s => exact ⟨_, _, rfl, addDescription h s, rfl⟩
    obtain ⟨source, v, hrun, hkept, hdurations⟩ := hsource
    let clock := if n.onMachine then .system else v.client.clock
    let x : Duration :=
      ⟨source, n.smoothing, clock, ⟨n.age.map (v.now clock - ·), n.pending, n.reversed⟩⟩
    refine ⟨⟨v.durations.next⟩, _, ?_, hkept.trans (addDuration hkept.tidy x), fun lane hlane heq => ?_⟩
    · rw [Tempo.duration, Newcomer.duration, perform_bind_ok _ hrun, perform_get_bind]
      rfl
    · rw [hdurations] at heq
      exact absurd heq.symm (Ref.ne_of_lt (h.wired.known lane hlane).1)

theorem course (h : w.Tidy) (target : Ref Target) (field : String) (c : Course) :
    Kept (.bindForeign ⟨target, field, c⟩) w (c.transition.perform w).2 := by
  cases c with
  | shared r => exact refl h
  | own start finish t =>
    obtain ⟨d, v, hrun, hkept, hduration⟩ := tempo
      (m := .bindForeign ⟨target, field, .own start finish t⟩) h t
    rw [Course.transition, perform_bind_ok _ hrun]
    refine hkept.trans (addTransition hkept.tidy ⟨d, start, finish⟩ fun lane hlane hdisturbs heq => ?_)
    obtain rfl := hduration lane (hkept.lanes ▸ hlane) heq
    exact absurd hdisturbs (by simp [Move.disturbs])

theorem bindForeign (h : w.Tidy) (f : Foreign) :
    Kept (.bindForeign f) w ((Gallery.bindForeign f).perform w).2 := by
  refine bind (course h f.target f.field f.course) fun r v hv => ?_
  rw [perform_get_bind]
  split
  · next hspare =>
    let b : Binding := ⟨f.target, f.field, r⟩
    have hlanes : ∀ lane ∈ v.client.lanes, b.transition ≠ lane.transition := fun lane hlane =>
      (of_decide_eq_true (List.all_eq_true.mp hspare.2 lane hlane)).symm
    exact enlisted hv.tidy rfl hspare.1 hlanes
  · exact refl hv.tidy

end Kept

end Gallery

end Tween
