import Tween.Proofs.Failing
import Tween.Proofs.Pictures

namespace Tween

namespace Act

variable {κ α : Type}

theorem Total.forM {f : α → Act κ Unit} (h : ∀ a, Total (f a)) (xs : List α) : Total (xs.forM f) := by
  induction xs with
  | nil => exact fun _ => ⟨(), rfl⟩
  | cons a rest ih =>
    rw [List.forM_eq_forM, List.forM_cons]
    exact (h a).bind fun _ => ih

theorem Total.perform_eq {act : Act κ Unit} (h : Total act) (w : World κ) :
    act.perform w = (.ok (), (act.perform w).2) := by
  obtain ⟨a, ha⟩ := h w
  exact Prod.ext ha rfl

end Act

namespace Gallery

open Act

/-- Every text that is made for a lane can be read or is refused, so no length is a fault. -/
theorem total_setLength (length : Int) : Total (setLength length) := by
  have hlane : ∀ lane : Lane, Total (do
      let easing := ((← get).descriptions.get lane.setting).value.easingName
      let _ ← configureLane lane (withLength (clampLength length) easing) : Act Hall Unit) := by
    intro lane w
    rw [perform_get_bind, perform_bind_pure, configureLane, perform_setDescriptionText,
      Description.read?_withLength (clampLength_nonneg length)]
    rcases Option.bind _ _ with _ | d <;> exact ⟨_, rfl⟩
  refine Total.bind (fun _ => ⟨_, rfl⟩) fun _ w => ?_
  rw [perform_get_bind]
  exact Total.bind (.forM hlane _) (fun _ _ => ⟨_, rfl⟩) w

def Input.quits : Input → Bool
  | .quit | .press .escape => true
  | _ => false

def Frame.quits (f : Frame) : Bool :=
  f.inputs.any Input.quits

end Gallery

namespace World

open Gallery Act

variable {w : World Hall}

/-- The gallery once an event has been handled. A change of the length starts from the length there
is by then. -/
def afterInput (w : World Hall) : Input → World Hall
  | .press .space => (launch.perform w).2
  | .press .r => (reverseAll.perform w).2
  | .press .plus | .press .equals | .press .keypadPlus =>
    ((setLength (w.client.length + lengthStep)).perform w).2
  | .press .minus | .press .keypadMinus => ((setLength (w.client.length - lengthStep)).perform w).2
  | .press .escape | .press .other | .quit | .other => w

/-- The gallery once a frame is over: the clock has moved on, all events have been handled in order,
and there has been one update. -/
def afterFrame (w : World Hall) (f : Frame) : World Hall :=
  (tick.perform (f.inputs.foldl afterInput ((advanceClock f.elapsed).perform w).2)).2

def afterFrames (w : World Hall) (fs : List Frame) : World Hall :=
  fs.foldl afterFrame w

/-- The gallery on a clock that does not go back, in order and with all orbs in reach. -/
structure Showable (w : World Hall) : Prop where
  steady : w.Steady false
  drawable : w.Drawable

namespace Showable

/-- Whether an action succeeds, and leaves a gallery that can be shown. -/
def Bears (w : World Hall) (act : Act Hall Unit) : Prop :=
  act.perform w = (.ok (), (act.perform w).2) ∧ (act.perform w).2.Showable

theorem launch (h : w.Showable) : Bears w launch := by
  obtain ⟨w', hrun, hsteady, -⟩ := h.steady.launch
  have hdrawable := h.drawable.launch h.steady
  rw [Bears, hrun] at *
  exact ⟨rfl, hsteady, hdrawable⟩

theorem reverseAll (h : w.Showable) : Bears w reverseAll := by
  obtain ⟨w', hrun, hsteady, -⟩ := h.steady.reverseAll
  have hdrawable := h.drawable.reverseAll
  rw [Bears, hrun] at *
  exact ⟨rfl, hsteady, hdrawable⟩

theorem setLength (h : w.Showable) {length : Int} (hlength : lengthStep ∣ length) :
    Bears w (setLength length) :=
  ⟨(total_setLength length).perform_eq w, h.steady.setLength length,
    h.drawable.setLength h.steady hlength⟩

theorem advanceClock (h : w.Showable) {ms : Int} (hms : 0 ≤ ms) : Bears w (advanceClock ms) := by
  refine ⟨?_, h.steady.advanceClock (.inr hms), h.drawable.advanceClock h.steady (.inr hms)⟩
  obtain ⟨r, v, hrun, -, -, hok⟩ := advanceClock_forward h.steady.clock (.inr hms)
  rw [hrun, hok hms]

theorem tick (h : w.Showable) : Bears w tick := by
  obtain ⟨w', hrun, hhandled, hsteady⟩ := h.steady.tick
  rw [Bears, hrun]
  exact ⟨rfl, hsteady, h.drawable.handled h.steady hhandled⟩

/-- An event does what it stands for, and the session goes on unless it asks to quit. -/
theorem obey (h : w.Showable) (i : Input) :
    (obey i.command).perform w = (.ok (!i.quits), w.afterInput i) ∧ (w.afterInput i).Showable := by
  have hsame : ∀ b : Bool, (pure b : Act Hall Bool).perform w = (.ok b, w) := fun _ => rfl
  have hmore := h.setLength (Int.dvd_add h.drawable.length.step (Int.dvd_refl lengthStep))
  have hless := h.setLength (Int.dvd_sub h.drawable.length.step (Int.dvd_refl lengthStep))
  cases i with
  | quit | other => exact ⟨hsame _, h⟩
  | press key =>
    cases key with
    | escape | other => exact ⟨hsame _, h⟩
    | space => exact ⟨perform_bind_ok _ h.launch.1, h.launch.2⟩
    | r => exact ⟨perform_bind_ok _ h.reverseAll.1, h.reverseAll.2⟩
    | plus | equals | keypadPlus =>
      exact ⟨(perform_get_bind _ w).trans (perform_bind_ok _ hmore.1), hmore.2⟩
    | minus | keypadMinus =>
      exact ⟨(perform_get_bind _ w).trans (perform_bind_ok _ hless.1), hless.2⟩

/-- All events are handled, and the session goes on unless one of them asks to quit. -/
theorem handle (h : w.Showable) (inputs : List Input) :
    (handle inputs).perform w = (.ok !inputs.any Input.quits, inputs.foldl afterInput w) ∧
      (inputs.foldl afterInput w).Showable := by
  induction inputs generalizing w with
  | nil => exact ⟨rfl, h⟩
  | cons i rest ih =>
    obtain ⟨hobey, hnext⟩ := h.obey i
    obtain ⟨hrest, hshowable⟩ := ih hnext
    refine ⟨?_, hshowable⟩
    rw [Gallery.handle, perform_bind_ok _ hobey, perform_bind_ok _ hrest, List.any_cons,
      Bool.not_or, Bool.and_comm]
    rfl

theorem advanceFrame (h : w.Showable) (inputs : List Input) :
    (advanceFrame inputs).perform w =
        (.ok !inputs.any Input.quits, (Gallery.tick.perform (inputs.foldl afterInput w)).2) ∧
      (Gallery.tick.perform (inputs.foldl afterInput w)).2.Showable := by
  obtain ⟨hhandle, hhandled⟩ := h.handle inputs
  obtain ⟨htick, hticked⟩ := hhandled.tick
  refine ⟨?_, hticked⟩
  rw [Gallery.advanceFrame, perform_bind_ok _ hhandle, perform_bind_ok _ htick]
  rfl

theorem picture (h : w.Showable) (fontHeight : Int) :
    (picture fontHeight).perform w = (.ok (scene fontHeight w), w) :=
  perform_picture (h.drawable.completes_drawScene h.steady fontHeight)

end Showable

end World

namespace Gallery

open World Act

variable {w : World Hall}

theorem showable_onSystemClock : onSystemClock.Showable where
  steady := (landed_opened none).steady
  drawable := drawable_onSystemClock

def shot (fontHeight : Int) (w : World Hall) : List Call :=
  .tick framesPerSecond :: scene fontHeight w

def film (fontHeight : Int) (w : World Hall) : List Frame → List Call
  | [] => []
  | f :: rest => shot fontHeight (w.afterFrame f) ++ film fontHeight (w.afterFrame f) rest

theorem film_append (fontHeight : Int) (w : World Hall) (front rest : List Frame) :
    film fontHeight w (front ++ rest) =
      film fontHeight w front ++ film fontHeight (w.afterFrames front) rest := by
  induction front generalizing w with
  | nil => rfl
  | cons f front ih =>
    rw [List.cons_append, film, film, ih, List.append_assoc]
    rfl

theorem perform_playFrames_cons (h : w.Showable) (fontHeight : Int) {f : Frame}
    (hf : 0 ≤ f.elapsed) (rest : List Frame) :
    (w.afterFrame f).Showable ∧ (playFrames fontHeight (f :: rest)).perform w =
      if f.quits then (.ok (shot fontHeight (w.afterFrame f)), w.afterFrame f)
      else
        let later := (playFrames fontHeight rest).perform (w.afterFrame f)
        (later.1.map (shot fontHeight (w.afterFrame f) ++ ·), later.2) := by
  obtain ⟨hclock, hmoved⟩ := h.advanceClock hf
  obtain ⟨hframe, hshowable⟩ := hmoved.advanceFrame f.inputs
  refine ⟨hshowable, ?_⟩
  rw [playFrames, perform_bind_ok _ hclock, perform_bind_ok _ hframe,
    perform_bind_ok _ (hshowable.picture fontHeight)]
  cases hquits : f.inputs.any Input.quits with
  | true =>
    rw [if_pos (show f.quits = true from hquits)]
    rfl
  | false =>
    rw [if_neg (show ¬f.quits = true from Bool.eq_false_iff.mp hquits)]
    exact perform_bind_pure _ _ _

theorem perform_playFrames_append (h : w.Showable) (fontHeight : Int) {front : List Frame}
    (hfront : ∀ f ∈ front, 0 ≤ f.elapsed ∧ f.quits = false) (rest : List Frame) :
    (w.afterFrames front).Showable ∧ (playFrames fontHeight (front ++ rest)).perform w =
      let later := (playFrames fontHeight rest).perform (w.afterFrames front)
      (later.1.map (film fontHeight w front ++ ·), later.2) := by
  induction front generalizing w with
  | nil =>
    refine ⟨h, ?_⟩
    rw [List.nil_append]
    change _ = (Except.map id _, _)
    rw [Except.map_id]
    rfl
  | cons f front ih =>
    rw [List.forall_mem_cons] at hfront
    obtain ⟨hnext, hplay⟩ :=
      perform_playFrames_cons h fontHeight hfront.1.1 (front ++ rest)
    obtain ⟨hshowable, hlater⟩ := ih hnext hfront.2
    refine ⟨hshowable, ?_⟩
    rw [List.cons_append, hplay, hfront.1.2, if_neg Bool.false_ne_true, hlater]
    dsimp only [afterFrames, List.foldl_cons]
    cases ((playFrames fontHeight rest).perform _).1 with
    | error => rfl
    | ok calls =>
      dsimp only [Except.map]
      rw [film, List.append_assoc]

/-- A session plays its frames up to the first one with a request to quit, with one update and one
picture each, and leaves the gallery that they make of a new one. -/
theorem play_eq_run (fontHeight : Int) (front : List Frame) (last : Frame) (later : List Frame)
    (hclock : ∀ f ∈ front ++ [last], 0 ≤ f.elapsed) (hfront : ∀ f ∈ front, f.quits = false)
    (hlast : last.quits = true) :
    play fontHeight (front ++ last :: later) =
        (.ok (opening ++ film fontHeight onSystemClock (front ++ [last]) ++ [.quit]),
          onSystemClock.afterFrames (front ++ [last])) ∧
      (∀ past rest, front = past ++ rest →
        let goOn := (playFrames fontHeight (rest ++ last :: later)).perform
          (onSystemClock.afterFrames past)
        (playFrames fontHeight (front ++ last :: later)).perform onSystemClock =
          (goOn.1.map (film fontHeight onSystemClock past ++ ·), goOn.2)) ∧
      ∀ past, past <+: front ++ [last] →
        let w := onSystemClock.afterFrames past
        (picture fontHeight).perform w = (.ok (scene fontHeight w), w) ∧
          200 ∣ w.client.length ∧ 200 ≤ w.client.length ∧ w.client.length ≤ 3000 := by
  have hstart := showable_onSystemClock
  rw [List.forall_mem_append, List.forall_mem_singleton] at hclock
  have hboth : ∀ f ∈ front, 0 ≤ f.elapsed ∧ f.quits = false :=
    fun f hf => ⟨hclock.1 f hf, hfront f hf⟩
  -- Nothing quits before the last frame, so the session shows its film up to there.
  obtain ⟨hbefore, hplay⟩ := perform_playFrames_append hstart fontHeight hboth (last :: later)
  obtain ⟨hafter, hend⟩ := perform_playFrames_cons hbefore fontHeight hclock.2 later
  have hlastly : onSystemClock.afterFrames (front ++ [last]) =
      (onSystemClock.afterFrames front).afterFrame last := List.foldl_append
  refine ⟨?_, fun past rest heq => ?_, fun past hpast => ?_⟩
  · have hfilm : film fontHeight (onSystemClock.afterFrames front) [last] =
        shot fontHeight (onSystemClock.afterFrames (front ++ [last])) :=
      hlastly ▸ List.append_nil _
    rw [hend, if_pos hlast] at hplay
    rw [play, hplay, film_append, hfilm, hlastly]
    rfl
  · subst heq
    rw [List.forall_mem_append] at hboth
    rw [List.append_assoc]
    exact (perform_playFrames_append hstart fontHeight hboth.1 _).2
  · have hshowable : (onSystemClock.afterFrames past).Showable := by
      rcases List.prefix_concat_iff.mp hpast with rfl | hpast
      · rw [hlastly]
        exact hafter
      · refine (perform_playFrames_append hstart fontHeight (fun f hf => ?_) []).1
        exact hboth f (hpast.subset hf)
    have hlength := hshowable.drawable.length
    exact ⟨hshowable.picture fontHeight, hlength.step, hlength.least, hlength.most⟩

/-- Two presses of a key in one frame lengthen twice, the second one after a request to quit, and the
orbs are updated in that frame, but the frame after it is not played. -/
theorem play_eq_run_quitting :
    let front : List Frame := [⟨0, [.press .space]⟩]
    let last : Frame := ⟨400, [.press .plus, .press .escape, .press .plus]⟩
    let w := onSystemClock.afterFrames (front ++ [last])
    (play 13 (front ++ last :: [⟨100, [.press .minus]⟩])).2 = w ∧ w.client.length = 1200 ∧
      w.client.lanes.map (fun lane => w.orbX lane == leftEnd) =
        [false, false, false, false, false] := by
  intro front last w
  have hrun := play_eq_run 13 front last [⟨100, [.press .minus]⟩] (by decide) (by decide) (by decide)
  refine ⟨?_, by decide +kernel⟩
  rw [hrun.1]

end Gallery

end Tween
