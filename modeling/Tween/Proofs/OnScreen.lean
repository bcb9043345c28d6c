import Tween.Proofs.Newton
import Tween.Proofs.Resting

namespace Tween

open Number

def InReach (x : Float) : Prop :=
  Within x (-3480) 4520

def OnRail (x : Float) : Prop :=
  Within x 320 720

theorem OnRail.inReach {x : Float} (h : OnRail x) : InReach x :=
  h.mono (by decide) (by decide)

namespace Gallery

structure IsStepped (length : Int) : Prop where
  step : lengthStep ∣ length
  least : minLength ≤ length
  most : length ≤ maxLength

theorem isStepped_clampLength {length : Int} (h : lengthStep ∣ length) :
    IsStepped (clampLength length) := by
  unfold clampLength
  constructor <;> unfold lengthStep minLength maxLength at * <;> omega

theorem isStepped_defaultLength : IsStepped defaultLength where
  step := by decide
  least := by decide
  most := by decide

theorem denotes_leftEnd : Denotes leftEnd 320 :=
  .of_value (s := .positive) (m := 5 * 2 ^ 50) (e := -44) rfl (by norm_num [withSign])

theorem denotes_rightEnd : Denotes rightEnd 720 :=
  .of_value (s := .positive) (m := 45 * 2 ^ 47) (e := -43) rfl (by norm_num [withSign])

theorem onRail_leftEnd : OnRail leftEnd :=
  ⟨320, denotes_leftEnd, by norm_num⟩

theorem onRail_rightEnd : OnRail rightEnd :=
  ⟨720, denotes_rightEnd, by norm_num⟩

end Gallery

/-- A moderate progress from a place in reach to one on the rail stays in reach. -/
theorem Transition.inReach_at {t : Transition} {p : Float} {b : ℚ} (hstart : InReach t.start)
    (hfinish : OnRail t.finish) (hp : Denotes p b) (h₀ : 0 ≤ b) (h₁ : b ≤ 15 / 8) :
    InReach (t.at p) := by
  obtain ⟨s, hs, hs₀, hs₁⟩ := hstart
  obtain ⟨f, hf, hf₀, hf₁⟩ := hfinish
  push_cast at hs₀ hs₁ hf₀ hf₁
  have hway : |f - s| ≤ 2 ^ 52 := abs_le.mpr ⟨by linarith, by linarith⟩
  have hdifference := hf.sub hs (lt_overflowBound_of_abs_le hway)
  have herror := abs_le.mp (abs_snap_sub_le_one hway)
  generalize snap (f - s) = d at hdifference herror
  have hpart : |b * d| ≤ 2 ^ 52 := by
    have hmost : |b * d| ≤ 10000 := by
      rw [abs_le]
      constructor <;> nlinarith
    exact hmost.trans (by norm_num)
  have hproduct := hp.mul hdifference (lt_overflowBound_of_abs_le hpart)
  have herror' := abs_le.mp (abs_snap_sub_le_one hpart)
  have hsum : s + snap (b * d) ∈ Set.Icc ((-3480 : ℤ) : ℚ) (4520 : ℤ) := by
    push_cast
    rcases le_total b 1 with hwithin | hbeyond
    · -- Up to the end the rounded way lies between nothing and all of it.
      have hall : snap d = d := hdifference.snap_eq
      rcases le_total 0 d with hd | hd
      · have hmore := snap_nonneg (mul_nonneg h₀ hd)
        have hmost : snap (b * d) ≤ snap d := snap_mono (by nlinarith)
        constructor <;> linarith
      · have hmore : snap (b * d) ≤ snap 0 := snap_mono (mul_nonpos_of_nonneg_of_nonpos h₀ hd)
        have hmost : snap d ≤ snap (b * d) := snap_mono (by nlinarith)
        rw [snap_zero] at hmore
        constructor <;> linarith
    · constructor <;> nlinarith
  exact .of_snap (hs.add hproduct) hsum (by decide) (by decide)

theorem Number.exists_integerText {n : ℤ} {k : ℕ} (hpos : 0 < k) (hk : k ≤ digitLimit)
    (h : n.natAbs < 10 ^ k) : ∃ text, integerText n = .ok text :=
  ⟨_, if_pos ((Text.length_naturalDigits_le hpos h).trans hk)⟩

structure Description.Drawable (d : Description) : Prop where
  written : ∃ text, integerText d.length = .ok text
  moderate : Moderate d.easing.eval

theorem Description.exists_integerText_of_read? {text : String} {d : Description}
    (h : read? text = .ok (some d)) : ∃ text, integerText d.length = .ok text := by
  obtain ⟨n, -, hlength, hdigits, -⟩ := of_read? h
  rw [hlength]
  exact ⟨_, if_pos hdigits⟩

namespace World

open Gallery Act

variable {manual : Bool} {w w' : World Hall} {lane : Lane}

/-- The gallery with orbs in reach, on their way to places on the rail. -/
structure Drawable (w : World Hall) : Prop where
  length : IsStepped w.client.length
  rows : w.client.lanes.length ≤ laneEasings.length
  described : ∀ r, (w.descriptions.get r).value.Drawable
  start : ∀ lane ∈ w.client.lanes, InReach (w.transitions.get lane.transition).start
  finish : ∀ lane ∈ w.client.lanes, OnRail (w.transitions.get lane.transition).finish
  orb : ∀ lane ∈ w.client.lanes, InReach (w.orbX lane)

namespace Drawable

theorem easing (h : w.Drawable) (hs : w.Steady manual) (hlane : lane ∈ w.client.lanes) :
    Moderate (w.easing lane.duration).eval := by
  unfold World.easing
  rw [hs.tidy.wired.source lane hlane]
  exact (h.described _).moderate

theorem inReach_value (h : w.Drawable) (hs : w.Steady manual) (hlane : lane ∈ w.client.lanes)
    {x : Float} (hx : w.value lane.transition = .ok x) : InReach x := by
  obtain ⟨p, b, hp, hb, h₀, h₁⟩ := exists_progress (h.easing hs hlane) (hs.timely lane.duration)
  rw [value, hs.tidy.wired.duration lane hlane, hp] at hx
  cases hx
  exact Transition.inReach_at (h.start lane hlane) (h.finish lane hlane) hb h₀ h₁

theorem onRail_farEnd (w : World Hall) (lane : Lane) : OnRail (w.farEnd lane) := by
  unfold farEnd
  split
  · exact onRail_leftEnd
  · exact onRail_rightEnd

theorem congr (h : w.Drawable) (hclient : w'.client = w.client)
    (hdescriptions : w'.descriptions = w.descriptions) (htransitions : w'.transitions = w.transitions)
    (htargets : w'.targets = w.targets) : w'.Drawable := by
  have horb : w'.orbX = w.orbX := by
    unfold World.orbX
    rw [htargets]
  refine ⟨?_, ?_, ?_, ?_, ?_, ?_⟩
  · rw [hclient]
    exact h.length
  · rw [hclient]
    exact h.rows
  · rw [hdescriptions]
    exact h.described
  · rw [hclient, htransitions]
    exact h.start
  · rw [hclient, htransitions]
    exact h.finish
  · rw [hclient, horb]
    exact h.orb

theorem retimed (h : w.Drawable) {d : Ref Duration} {t : Timer} (hr : w.Retimed w' d t) :
    w'.Drawable :=
  h.congr (by rw [hr.frame]) (by rw [hr.frame]) (by rw [hr.frame]) (by rw [hr.frame])

theorem launched {x : Float} (h : w.Drawable) (hx : InReach x) (hl : w.Launched w' lane x) :
    w'.Drawable := by
  have hclient : w'.client = w.client := by rw [hl.frame]
  have horb : w'.orbX = w.orbX := by
    rw [hl.frame]
    rfl
  refine ⟨?_, ?_, ?_, fun a ha => ?_, fun a ha => ?_, ?_⟩
  · rw [hclient]
    exact h.length
  · rw [hclient]
    exact h.rows
  · rw [hl.frame]
    exact h.described
  · rw [hclient] at ha
    rw [hl.transitions]
    split
    · exact hx
    · exact h.start a ha
  · rw [hclient] at ha
    rw [hl.transitions]
    split
    · exact onRail_farEnd w lane
    · exact h.finish a ha
  · rw [hclient, horb]
    exact h.orb

theorem launch (h : w.Drawable) (hs : w.Steady manual) :
    (Gallery.launch.perform w).2.Drawable := by
  rw [Gallery.launch, perform_get_bind]
  suffices hkeeps : Keeps (fun v => v.Steady manual ∧ v.Drawable ∧
      v.client.lanes = w.client.lanes) (w.client.lanes.forM launchLane) from
    (hkeeps w ⟨hs, h, rfl⟩).2.1
  refine .forM fun lane hlane v hall => ?_
  obtain ⟨hv, hdrawable, hlanes⟩ := hall
  obtain ⟨x, hx⟩ := hv.exists_value (hlanes ▸ hlane)
  obtain ⟨v', hrun, hlaunched⟩ := launched_launchLane hx
  have hkept := Kept.launchLane hv.tidy (hlanes ▸ hlane)
  rw [hrun] at hkept ⊢
  exact ⟨hv.launched hkept hlaunched,
    hdrawable.launched (hdrawable.inReach_value hv (hlanes ▸ hlane) hx) hlaunched,
    hkept.lanes.trans hlanes⟩

theorem reverseAll (h : w.Drawable) : (Gallery.reverseAll.perform w).2.Drawable := by
  rw [Gallery.reverseAll, perform_get_bind]
  refine Keeps.forM (fun lane _ v hv => ?_) w h
  obtain ⟨v', hrun, hretimed⟩ := retimed_reverseRunning v lane
  rw [hrun]
  exact hv.retimed hretimed

theorem advanceClock (h : w.Drawable) (hs : w.Steady manual) {ms : Int}
    (hms : manual = true ∨ 0 ≤ ms) : ((Gallery.advanceClock ms).perform w).2.Drawable := by
  obtain ⟨r, v, hrun, hframe, -⟩ := advanceClock_forward hs.clock hms
  rw [hrun]
  exact h.congr (by rw [hframe]) (by rw [hframe]) (by rw [hframe]) (by rw [hframe])

theorem exists_integerText_setLength
    (h : ∀ r, ∃ text, integerText (w.descriptions.get r).value.length = .ok text) (length : Int) :
    ∀ r, ∃ text, integerText
      (((Gallery.setLength length).perform w).2.descriptions.get r).value.length = .ok text := by
  let P (v : World Hall) : Prop :=
    ∀ r, ∃ text, integerText (v.descriptions.get r).value.length = .ok text
  suffices hkeeps : Keeps P (Gallery.setLength length) from hkeeps w h
  refine .bind (fun v hv => hv) fun _ => .get_bind fun v hv => ?_
  refine Keeps.bind (P := P) (.forM fun lane _ => .get_bind fun u hu => ?_) (fun _ u hu => ?_) v hv
  · rw [perform_bind_pure, configureLane, perform_setDescriptionText]
    rcases hread : Description.read? _ with _ | _ | d
    · exact hu
    · exact hu
    · intro q
      change ∃ text, integerText ((u.descriptions.set _ _).get q).value.length = .ok text
      rw [Store.get_set]
      split
      · exact Description.exists_integerText_of_read? hread
      · exact hu q
  · exact hu

theorem length_setLength (length : Int) :
    ((Gallery.setLength length).perform w).2.client.length = clampLength length := by
  let P (v : World Hall) : Prop := v.client.length = clampLength length
  refine Keeps.bind (P := P) (.forM fun lane _ => .get_bind fun u hu => ?_) (fun _ u hu => ?_)
    { w with client := { w.client with length := clampLength length } } rfl
  · rw [perform_bind_pure, configureLane, perform_setDescriptionText]
    rcases Description.read? _ with _ | _ | d <;> exact hu
  · exact hu

theorem setLength (h : w.Drawable) (hs : w.Steady manual) {length : Int}
    (hlength : lengthStep ∣ length) : ((Gallery.setLength length).perform w).2.Drawable := by
  have hnew := relengthed_setLength hs.faithful length
  have hset := length_setLength (w := w) length
  have hwritten := exists_integerText_setLength (fun r => (h.described r).written) length
  generalize ((Gallery.setLength length).perform w).2 = v at hnew hset hwritten
  have hlanes : v.client.lanes = w.client.lanes := by rw [hnew.frame]
  have horb : v.orbX = w.orbX := by
    rw [hnew.frame]
    rfl
  refine ⟨?_, ?_, fun r => ⟨hwritten r, ?_⟩, ?_, ?_, ?_⟩
  · rw [hset]
    exact isStepped_clampLength hlength
  · rw [hlanes]
    exact h.rows
  · rw [hnew.easing]
    exact (h.described r).moderate
  · rw [hlanes, hnew.frame]
    exact h.start
  · rw [hlanes, hnew.frame]
    exact h.finish
  · rw [hlanes, horb]
    exact h.orb

theorem handled (h : w.Drawable) (hs : w.Steady manual) (hh : w.Handled w' w.followed) :
    w'.Drawable := by
  have hlanes : w'.client.lanes = w.counted w.followed := by rw [hh.client]
  have hstart := h.start
  have hfinish := h.finish
  refine ⟨?_, ?_, ?_, fun lane hlane => ?_, fun lane hlane => ?_, fun lane hlane => ?_⟩
  · rw [hh.client]
    exact h.length
  · rw [hlanes, counted, List.length_map]
    exact h.rows
  · rw [hh.descriptions]
    exact h.described
  all_goals
    rw [hlanes] at hlane
    obtain ⟨base, hbase, rfl⟩ := List.mem_map.mp hlane
  · rw [hh.transitions]
    exact hstart base hbase
  · rw [hh.transitions]
    exact hfinish base hbase
  · have horb := orbX_handled hs hh hbase
    change InReach (w'.orbX base)
    rw [horb]
    split
    · refine h.inReach_value hs hbase ?_
      rw [value, hs.tidy.wired.duration base hbase, progress_eq_reading (hs.isOk_progress hbase)]
      rfl
    · exact h.orb base hbase

end Drawable

end World

namespace Gallery

open World Act

theorem moderate_of_opensLane {e : Easing} (h : opensLane e = true) : Moderate e.eval :=
  of_opensLane (P := fun e => Moderate e.eval) h Curve.moderate_eval Bezier.moderate_ease

theorem drawable_opened (clock : Option Int)
    (hrows : (opened clock).client.lanes.length ≤ laneEasings.length) : (opened clock).Drawable := by
  have hzero : ∃ text, integerText 0 = .ok text :=
    exists_integerText (k := 1) (by decide) (by decide) (by decide)
  obtain ⟨v, lanes, c, heq, ⟨-, hpoised, hwritten⟩, -⟩ := opened_induction
    (P := fun w lanes => Furnished w lanes ∧ Poised w lanes ∧
      ∀ r, ∃ text, integerText (w.descriptions.get r).value.length = .ok text) clock
    (fun monotonic clocks => ⟨.nil monotonic clocks, .nil monotonic clocks, fun _ => hzero⟩)
    fun v lanes title easing s c hmem hs ⟨hv, hpoised, hwritten⟩ => by
      refine ⟨hv.withLane c hs, hpoised.withLane hv.wired c hmem hs, fun r => ?_⟩
      rw [show (withLane v s c).descriptions.get r = _ from v.descriptions.get_add _ r]
      split
      · exact Description.exists_integerText_of_read? (Setting.read?_of_ofText hs)
      · exact hwritten r
  rw [heq] at hrows ⊢
  refine ⟨isStepped_defaultLength, hrows,
    fun r => ⟨hwritten r, moderate_of_opensLane (hpoised.described r)⟩, fun lane hlane => ?_,
    fun lane hlane => ?_, fun lane hlane => ?_⟩
  · change InReach (v.transitions.get lane.transition).start
    rw [(hpoised.left lane hlane).2]
    exact onRail_leftEnd.inReach
  · change OnRail (v.transitions.get lane.transition).finish
    rw [(hpoised.left lane hlane).2]
    exact onRail_leftEnd
  · change InReach (v.orbX lane)
    rw [(hpoised.left lane hlane).1]
    exact onRail_leftEnd.inReach

theorem drawable_onSystemClock : onSystemClock.Drawable :=
  drawable_opened none (by decide +kernel)

end Gallery

end Tween
