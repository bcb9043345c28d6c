import Tween.Gallery.Session
import Tween.Proofs.OnScreen

namespace Tween

namespace Number

theorem exists_ofInt {n k : ℤ} (h₀ : 0 ≤ n) (hn : n ≤ k) (hk : k.natAbs < 2 ^ 53) :
    ∃ x, ofInt n = .ok x ∧ Within x 0 k := by
  obtain ⟨m, rfl⟩ := Int.eq_ofNat_of_zero_le h₀
  have hnonneg : (0 : ℚ) ≤ m := Nat.cast_nonneg m
  have hmem : (m : ℚ) ∈ Set.Icc ((0 : ℤ) : ℚ) k := ⟨by rwa [Int.cast_zero], by exact_mod_cast hn⟩
  have hless := abs_lt_overflowBound (by decide) hk hmem
  rw [abs_of_nonneg hnonneg] at hless
  refine ⟨_, ofInt_natCast hless, .of_snap (fun _ => ?_) hmem (by decide) hk⟩
  exact Denotes.rounded .positive hnonneg hless

end Number

namespace Gallery

open Number

namespace Canvas

variable {α β : Type}

/-- Whether a drawing goes on to its end, whatever is on the canvas. -/
def Completes (canvas : Canvas α) : Prop :=
  ∀ calls, ∃ a calls', canvas.run calls = (.ok a, calls')

theorem run_bind (canvas : Canvas α) (f : α → Canvas β) (calls : Array Call) :
    (canvas >>= f).run calls =
      match canvas.run calls with
      | (.ok a, calls') => (f a).run calls'
      | (.error fault, calls') => (.error fault, calls') := by
  change ExceptT.bindCont f (canvas calls).1 (canvas calls).2 = _
  change _ = match canvas calls with
    | (.ok a, calls') => f a calls'
    | (.error fault, calls') => (.error fault, calls')
  rcases canvas calls with ⟨_ | a, calls'⟩ <;> rfl

namespace Completes

theorem pure (a : α) : Completes (pure a) :=
  fun calls => ⟨a, calls, rfl⟩

theorem draw (call : Call) : Completes (draw call) :=
  fun _ => ⟨_, _, rfl⟩

theorem bind {canvas : Canvas α} {f : α → Canvas β} (h : canvas.Completes)
    (hf : ∀ a, (f a).Completes) : (canvas >>= f).Completes := by
  intro calls
  obtain ⟨a, calls', hrun⟩ := h calls
  rw [run_bind, hrun]
  exact hf a calls'

theorem lift_bind {e : Except Fault α} {a : α} {f : α → Canvas β} (he : e = .ok a)
    (hf : (f a).Completes) : ((liftM e : Canvas α) >>= f).Completes := by
  intro calls
  rw [run_bind, he]
  exact hf calls

theorem drawText (text : String) (color : Color) (x y : Int) :
    Completes (drawText text color x y) :=
  bind (draw _) fun _ => draw _

theorem calls {canvas : Canvas Unit} (h : canvas.Completes) : canvas.calls.1 = none := by
  obtain ⟨a, calls', hrun⟩ := h #[]
  rw [Canvas.calls, hrun]

end Completes

end Canvas

structure Box.Fits (b : Box) : Prop where
  left : 0 ≤ b.x ∧ b.x ≤ 1000
  top : 0 ≤ b.y ∧ b.y ≤ 1000
  width : 2 * plotPad ≤ b.width ∧ b.width ≤ 1000
  height : 2 * plotPad ≤ b.height ∧ b.height ≤ 1000

structure PlotArea.Fits (f : PlotArea) : Prop where
  left : 0 ≤ f.left ∧ f.left ≤ 1008
  width : 0 ≤ f.width ∧ f.width ≤ 1000
  top : Within f.top 0 2008
  height : Within f.height 0 1000

theorem Box.Fits.exists_area {b : Box} (h : b.Fits) : ∃ f, b.area = .ok f ∧ f.Fits := by
  obtain ⟨hleft, htop, hwidth, hheight⟩ := h
  unfold plotPad at hwidth hheight
  have hunit : Denotes (1.0 + 2.0 * headroom) (3 / 2) :=
    .of_value (s := .positive) (m := 3 * 2 ^ 51) (e := -52) rfl (by norm_num [withSign])
  have hheadroom : Within headroom 0 1 :=
    .of_denotes (.of_value (s := .positive) (m := 2 ^ 52) (e := -54) rfl (by norm_num [withSign]))
      (by norm_num : (1 / 4 : ℚ) ∈ _)
  obtain ⟨inner, hinner, hinner'⟩ := exists_ofInt (n := b.height - 2 * plotPad) (k := 1000)
    (by unfold plotPad; omega) (by unfold plotPad; omega) (by decide)
  obtain ⟨upper, hupper, hupper'⟩ := exists_ofInt (n := b.y + plotPad) (k := 1008)
    (by unfold plotPad; omega) (by unfold plotPad; omega) (by decide)
  have hhigh : Within (inner / (1.0 + 2.0 * headroom)) 0 1000 :=
    hinner'.div hunit (by norm_num) (by decide)
  refine ⟨⟨b.x + plotPad, b.width - 2 * plotPad, upper + inner / (1.0 + 2.0 * headroom) * headroom,
    inner / (1.0 + 2.0 * headroom)⟩, ?_, ⟨?_, ?_, ?_, hhigh⟩⟩
  · rw [area, hinner, hupper]
    rfl
  · dsimp only
    unfold plotPad
    omega
  · dsimp only
    unfold plotPad
    omega
  · exact hupper'.add (hhigh.mul hheadroom (by decide)) (by decide) (by decide)

namespace PlotArea.Fits

variable {f : PlotArea} {easing : Easing}

theorem exists_sample (h : f.Fits) (he : Moderate easing.eval) {t : Float} {a : ℚ}
    (ht : Denotes t a) (h₀ : 0 ≤ a) (h₁ : a ≤ 1) :
    ∃ x y, f.sample easing t = .ok (x, y) ∧ Within x 0 2008 ∧ Within y (-2000) 3008 := by
  obtain ⟨v, b, hv, hb, hb₀, hb₁⟩ := he t a ht h₀ h₁
  obtain ⟨left, hleft, hleft'⟩ := exists_ofInt h.left.1 h.left.2 (by decide)
  obtain ⟨width, hwidth, hwidth'⟩ := exists_ofInt h.width.1 h.width.2 (by decide)
  have hin : Within t 0 1 := .of_denotes ht ⟨by exact_mod_cast h₀, by exact_mod_cast h₁⟩
  have hvalue : Within v 0 2 :=
    .of_denotes hb ⟨by exact_mod_cast hb₀, hb₁.trans (by norm_num)⟩
  refine ⟨left + t * width, f.screenY v, ?_, ?_, ?_⟩
  · rw [sample, hv]
    dsimp only [bind, Except.bind]
    rw [toScreen, hleft, hwidth]
    rfl
  · exact hleft'.add (hin.mul hwidth' (by decide)) (by decide) (by decide)
  · exact (h.top.add h.height (by decide) (by decide)).sub (hvalue.mul h.height (by decide))
      (by decide) (by decide)

end PlotArea.Fits

theorem exists_sampleAt {i : ℕ} (hi : i ≤ plotSteps) :
    ∃ x a, sampleAt i = .ok x ∧ Denotes x a ∧ 0 ≤ a ∧ a ≤ 1 := by
  obtain ⟨a, ha, h₀, h₁⟩ := denotes_nearest_of_le false (by decide) hi
  refine ⟨nearest false i plotSteps, a, ?_, ha, h₀, h₁⟩
  have hsign : (decide ((i : ℤ) < 0) != decide ((plotSteps : ℤ) < 0)) = false := by
    rw [decide_eq_false (by omega), decide_eq_false (by omega)]
    rfl
  rw [sampleAt, quotient, if_neg (by decide), hsign, Int.natAbs_natCast, Int.natAbs_natCast]
  exact if_neg (by rw [isInf_of_isFinite ha.1]; exact Bool.false_ne_true)

theorem exists_mapM {α β : Type} {g : α → Except Fault β} {xs : List α}
    (h : ∀ x ∈ xs, ∃ y, g x = .ok y) : ∃ ys, xs.mapM g = .ok ys := by
  induction xs with
  | nil => exact ⟨[], rfl⟩
  | cons x rest ih =>
    rw [List.forall_mem_cons] at h
    obtain ⟨y, hy⟩ := h.1
    obtain ⟨ys, hys⟩ := ih h.2
    exact ⟨y :: ys, by rw [List.mapM_cons, hy, hys]; rfl⟩

theorem completes_drawPlot {easing : Easing} (he : Moderate easing.eval) (color : Color) {box : Box}
    (hbox : box.Fits) {current : Option Float}
    (hcurrent : ∀ t ∈ current, ∃ a, Denotes t a ∧ 0 ≤ a ∧ a ≤ 1) :
    (drawPlot easing color box current).Completes := by
  obtain ⟨f, harea, hf⟩ := hbox.exists_area
  have hsamples : ∃ points, f.samples easing = .ok points := by
    refine exists_mapM fun i hi => ?_
    obtain ⟨t, a, ht, ha, h₀, h₁⟩ := exists_sampleAt (Nat.le_of_lt_succ (List.mem_range.mp hi))
    obtain ⟨x, y, hsample, -⟩ := hf.exists_sample he ha h₀ h₁
    exact ⟨(x, y), by rw [ht]; exact hsample⟩
  obtain ⟨points, hpoints⟩ := hsamples
  refine .lift_bind harea (.bind (.draw _) fun _ => ?_)
  refine .bind (.draw _) fun _ => .bind (.draw _) fun _ => ?_
  refine .lift_bind hpoints (.bind (.draw _) fun _ => ?_)
  cases current with
  | none => exact .pure ()
  | some t =>
    obtain ⟨a, ha, h₀, h₁⟩ := hcurrent t rfl
    obtain ⟨x, y, hsample, hx, hy⟩ := hf.exists_sample he ha h₀ h₁
    obtain ⟨i, hi⟩ := hx.exists_truncate
    obtain ⟨j, hj⟩ := hy.exists_truncate
    exact .lift_bind hsample (.lift_bind hi (.lift_bind hj (.bind (.draw _) fun _ => .draw _)))

end Gallery

namespace World

open Gallery Act

variable {manual : Bool} {w : World Hall}

namespace Drawable

variable (h : w.Drawable) (hs : w.Steady manual) (fontHeight : Int)

include h in
theorem completes_drawLabel (y : Int) (lane : Lane) :
    (drawLabel w fontHeight y lane).Completes := by
  obtain ⟨text, htext⟩ := (h.described lane.setting).written
  exact .bind (.drawText _ _ _ _) fun _ => .lift_bind htext (.drawText _ _ _ _)

include h hs in
theorem completes_drawCurve (color : Color) {i : ℕ} (hi : i < laneEasings.length) (lane : Lane) :
    (drawCurve w color (i * laneHeight) lane).Completes := by
  obtain ⟨x, a, hx, ha, h₀, h₁⟩ := exists_fraction (hs.timely lane.duration)
  have hfits : Box.Fits ⟨labelWidth, i * laneHeight + 6, curveWidth, laneHeight - 12⟩ := by
    have hi' : i < 5 := hi
    constructor <;> simp only [labelWidth, laneHeight, curveWidth, plotPad] <;> omega
  refine .lift_bind hx (completes_drawPlot (h.described lane.setting).moderate color hfits ?_)
  intro t ht
  split at ht
  · cases ht
    exact ⟨a, ha, h₀, h₁⟩
  · cases ht

include h in
theorem completes_drawRail (color : Color) (y : Int) {lane : Lane} (hlane : lane ∈ w.client.lanes) :
    (drawRail w color y lane).Completes := by
  obtain ⟨i, hi⟩ := (h.orb lane hlane).exists_truncate
  refine .bind (.draw _) fun _ => .bind (.draw _) fun _ => ?_
  exact .bind (.draw _) fun _ => .bind (.draw _) fun _ => .lift_bind hi (.draw _)

include h hs in
theorem completes_drawLanesFrom (i : ℕ) {lanes : List Lane} (hlanes : lanes ⊆ w.client.lanes)
    (hrows : i + lanes.length ≤ laneEasings.length) :
    (drawLanesFrom w fontHeight i lanes).Completes := by
  induction lanes generalizing i with
  | nil => exact .pure ()
  | cons lane rest ih =>
    rw [List.length_cons] at hrows
    rw [List.cons_subset] at hlanes
    refine .bind ?_ fun _ => ih (i + 1) hlanes.2 (by omega)
    refine .bind (.draw _) fun _ => .bind (.draw _) fun _ => ?_
    refine .bind (h.completes_drawLabel fontHeight _ lane) fun _ => ?_
    exact .bind (h.completes_drawCurve hs _ (by omega) lane) fun _ =>
      h.completes_drawRail _ _ hlanes.1

include h hs in
theorem completes_drawScene : (drawScene w fontHeight).Completes := by
  have hlength : w.client.length.natAbs < 10 ^ 4 := by
    have hleast := h.length.least
    have hmost := h.length.most
    unfold minLength at hleast
    unfold maxLength at hmost
    omega
  obtain ⟨text, htext⟩ := Number.exists_integerText (by decide) (by decide) hlength
  have hrows : 0 + w.client.lanes.length ≤ laneEasings.length := by
    rw [Nat.zero_add]
    exact h.rows
  refine .bind (.draw _) fun _ => ?_
  refine .bind (h.completes_drawLanesFrom hs fontHeight 0 (List.Subset.refl _) hrows) fun _ => ?_
  refine .bind ?_ fun _ => .draw _
  exact .bind (.draw _) fun _ => .bind (.draw _) fun _ => .lift_bind htext (.drawText _ _ _ _)

end Drawable

end World

namespace Gallery

open World Act

def scene (fontHeight : Int) (w : World Hall) : List Call :=
  (drawScene w fontHeight).calls.2.toList

theorem perform_picture {w : World Hall} {fontHeight : Int}
    (h : (drawScene w fontHeight).Completes) :
    (picture fontHeight).perform w = (.ok (scene fontHeight w), w) := by
  have hcalls := h.calls
  rw [picture, perform_query, scene]
  generalize (drawScene w fontHeight).calls = drawn at hcalls ⊢
  obtain ⟨_ | fault, calls⟩ := drawn
  · rfl
  · cases hcalls

end Gallery

end Tween
