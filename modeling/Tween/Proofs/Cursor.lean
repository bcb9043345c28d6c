import Tween.Proofs.Completion
import Tween.Proofs.Ratio

namespace Tween

variable {κ : Type}

/-- A position on the way from zero to a length, and the direction of travel. -/
structure Cursor where
  pos : Int
  reversed : Bool
deriving DecidableEq

namespace Cursor

def farEnd (length : Int) (c : Cursor) : Int :=
  if c.reversed then 0 else length

def start (length : Int) (c : Cursor) : Cursor :=
  { c with pos := if c.reversed then length else 0 }

def reverse (c : Cursor) : Cursor :=
  { c with reversed := !c.reversed }

def advance (length dt : Int) (c : Cursor) : Cursor :=
  { c with pos := max 0 (min length (if c.reversed then c.pos - dt else c.pos + dt)) }

/-- What a call makes of the cursor of `d`. Clocks move it; polls and queries do not. -/
def follow (length : Int) (d : Ref Duration) (c : Cursor) (call : Call κ) : Cursor :=
  match call.op with
  | .onDuration q .start => if q = d then c.start length else c
  | .onDuration q .reverse => if q = d then c.reverse else c
  | .setMonotonic _ | .onClock .. => c.advance length (call.after.nowOf d - call.before.nowOf d)
  | _ => c

def covered (length : Int) (c : Cursor) : Int :=
  if c.reversed then length - c.pos else c.pos

theorem covered_start (length : Int) (c : Cursor) : (c.start length).covered length = 0 := by
  obtain ⟨pos, reversed⟩ := c
  cases reversed
  · rfl
  · exact Int.sub_self length

theorem covered_reverse (length : Int) (c : Cursor) :
    c.reverse.covered length = length - c.covered length := by
  obtain ⟨pos, reversed⟩ := c
  cases reversed
  · rfl
  · exact (Int.sub_sub_self length pos).symm

theorem covered_advance {length dt : Int} {c : Cursor} (h0 : 0 ≤ c.pos) (h1 : c.pos ≤ length)
    (hdt : 0 ≤ dt) :
    (c.advance length dt).covered length = min (c.covered length + dt) length := by
  obtain ⟨pos, reversed⟩ := c
  change 0 ≤ pos at h0
  change pos ≤ length at h1
  cases reversed
  · change max 0 (min length (pos + dt)) = min (pos + dt) length
    omega
  · change length - max 0 (min length (pos - dt)) = min (length - pos + dt) length
    omega

theorem covered_nonneg {length : Int} {c : Cursor} (h0 : 0 ≤ c.pos) (h1 : c.pos ≤ length) :
    0 ≤ c.covered length := by
  unfold covered
  split
  · omega
  · exact h0

/-- The cursor stands where a duration of this length does. -/
structure Tracks (w : World κ) (d : Ref Duration) (length : Int) (c : Cursor) : Prop where
  length_eq : w.length d = length
  reversed : (w.timer d).reversed = c.reversed
  spent : (w.timer d).spent (w.nowOf d) length = c.covered length
  nonneg : 0 ≤ c.pos
  le_length : c.pos ≤ length

end Cursor

namespace Timer

variable (t : Timer) (now length : Int)

theorem spent_advance {dt : Int} (hdt : 0 ≤ dt) :
    t.spent (now + dt) length = min (t.spent now length + dt) length := by
  unfold spent elapsed
  cases t.startedAt with
  | none =>
    simp only [Option.map_none]
    omega
  | some s =>
    simp only [Option.map_some]
    omega

theorem spent_reverse (h : 0 ≤ t.spent now length) :
    (t.reverse now length).spent now length = length - t.spent now length := by
  change min (now - (now - (length - t.spent now length))) length = _
  omega

end Timer

namespace Cursor

variable {w : World κ} {d : Ref Duration} {length : Int} {c : Cursor}

theorem Tracks.congr {w' : World κ} (h : c.Tracks w d length) (hlength : w'.length d = w.length d)
    (htimer : (w'.timer d).startedAt = (w.timer d).startedAt ∧
      (w'.timer d).reversed = (w.timer d).reversed)
    (hnow : w'.nowOf d = w.nowOf d) : c.Tracks w' d length where
  length_eq := hlength.trans h.length_eq
  reversed := htimer.2.trans h.reversed
  spent := by
    rw [Timer.spent, Timer.elapsed, htimer.1, hnow]
    exact h.spent
  nonneg := h.nonneg
  le_length := h.le_length

theorem Tracks.advance {w' : World κ} (h : c.Tracks w d length)
    (hlength : w'.length d = w.length d) (htimer : w'.timer d = w.timer d)
    (hnow : w.nowOf d ≤ w'.nowOf d) :
    (c.advance length (w'.nowOf d - w.nowOf d)).Tracks w' d length where
  length_eq := hlength.trans h.length_eq
  reversed := by rw [htimer, h.reversed]; rfl
  spent := by
    have hdt : 0 ≤ w'.nowOf d - w.nowOf d := by omega
    have hsum : w'.nowOf d = w.nowOf d + (w'.nowOf d - w.nowOf d) := by omega
    rw [covered_advance h.nonneg h.le_length hdt, ← h.spent, ← Timer.spent_advance _ _ _ hdt,
      ← hsum, htimer]
  nonneg := Int.le_max_left ..
  le_length := by
    have := h.nonneg
    have := h.le_length
    simp only [Cursor.advance]
    omega

theorem Tracks.respond (h : c.Tracks w d length) (op : DurationOp) :
    (c.follow length d ⟨w, .onDuration d op⟩).Tracks (w.step (.onDuration d op)).2 d length := by
  have hstep := w.step_onDuration d op
  have hlength := (hstep.length d).trans h.length_eq
  have htimer := w.timer_onDuration d op
  have hnow := hstep.nowOf d
  have hone : 1 ≤ length := h.length_eq ▸ w.one_le_length d
  cases op with
  | start =>
    -- A start puts the cursor where its direction begins.
    rw [show c.follow length d ⟨w, .onDuration d .start⟩ = c.start length from if_pos rfl]
    refine ⟨hlength, by rw [htimer]; exact h.reversed, ?_, ?_, ?_⟩
    · rw [htimer, hnow, covered_start]
      change min (w.nowOf d - w.nowOf d) length = 0
      omega
    · simp only [Cursor.start]
      split <;> omega
    · simp only [Cursor.start]
      split <;> omega
  | reverse =>
    -- A turn leaves the cursor in place and trades what is spent for what is ahead.
    rw [show c.follow length d ⟨w, .onDuration d .reverse⟩ = c.reverse from if_pos rfl]
    refine ⟨hlength, by rw [htimer]; exact congrArg (!·) h.reversed, ?_, h.nonneg, h.le_length⟩
    have hspent : 0 ≤ (w.timer d).spent (w.nowOf d) length := by
      rw [h.spent]
      exact covered_nonneg h.nonneg h.le_length
    rw [htimer, hnow, Timer.respond, h.length_eq, Timer.spent_reverse _ _ _ hspent, h.spent,
      covered_reverse]
  | _ =>
    apply h.congr (hstep.length d) _ hnow
    rw [htimer]
    exact Timer.respond_of_ne _ _ _ (fun e => by cases e) (fun e => by cases e)

theorem Tracks.step {op : Op} (h : c.Tracks w d length) (hop : op.isTiming = true)
    (hsteady : (Call.mk w op).Steady d) :
    (c.follow length d ⟨w, op⟩).Tracks (w.step op).2 d length := by
  rcases Op.isTiming_cases hop with hc | hs | ⟨q, o, rfl⟩
  · have hfollow : c.follow length d ⟨w, op⟩ =
        c.advance length ((w.step op).2.nowOf d - w.nowOf d) := by
      cases op with
      | setMonotonic | onClock => rfl
      | _ => cases hc
    rw [hfollow]
    exact h.advance hsteady.2 (by rw [w.step_isClock hc]; rfl) hsteady.1
  · have hfollow : c.follow length d ⟨w, op⟩ = c := by
      cases op with
      | onLength | onDescription => rfl
      | _ => cases hs
    rw [hfollow]
    have hframe := (w.step_isSetting hs).frame
    exact h.congr hsteady.2 (by rw [hframe]; exact ⟨rfl, rfl⟩) (by rw [hframe]; rfl)
  · -- An operation on another duration leaves notices here, and nothing else.
    by_cases hq : q = d
    · subst hq
      exact h.respond o
    · have hfollow : c.follow length d ⟨w, .onDuration q o⟩ = c := by
        cases o with
        | start | reverse => exact if_neg hq
        | _ => rfl
      have hstep := w.step_onDuration q o
      rw [hfollow]
      apply h.congr (hstep.length d) _ (hstep.nowOf d)
      rw [hstep.timer, if_neg hq]
      exact ⟨rfl, rfl⟩

theorem Tracks.run {ops : List Op} (h : c.Tracks w d length)
    (hops : ∀ op ∈ ops, op.isTiming = true) (hsteady : ∀ a ∈ w.calls ops, a.Steady d) :
    ((w.calls ops).foldl (follow length d) c).Tracks (w.after ops) d length := by
  induction ops generalizing w c with
  | nil => exact h
  | cons op rest ih =>
    rw [List.forall_mem_cons] at hops
    simp only [World.calls, List.forall_mem_cons] at hsteady
    exact ih (h.step hops.1 hsteady.1) hops.2 hsteady.2

end Cursor

namespace World

variable (w : World κ) (d : Ref Duration)

end World

end Tween
