import Tween.Proofs.Tick

namespace Tween

variable {κ : Type}

namespace Op

def sparesCompletions : Op → Bool
  | .onSystem .. => true
  | .onDuration _ op => !op.asks
  | op => op.isClock || op.isSetting

def appends (s : Ref System) : Op → List (Ref Binding)
  | .onSystem r (.add b) => if r = s then [b] else []
  | _ => []

theorem sparesCompletions_cases {op : Op} (h : op.sparesCompletions = true) :
    (∃ s o, op = .onSystem s o) ∨ op.isClock = true ∨ op.isSetting = true ∨
      ∃ d o, op = .onDuration d o ∧ o.asks = false := by
  cases op with
  | onSystem s o => exact .inl ⟨s, o, rfl⟩
  | onDuration d o => exact .inr (.inr (.inr ⟨d, o, rfl, by simpa [sparesCompletions] using h⟩))
  | setMonotonic | onClock => exact .inr (.inl rfl)
  | onLength | onDescription => exact .inr (.inr (.inl rfl))
  | _ => cases h

end Op

namespace World

structure SameLists (w w' : World κ) : Prop where
  systems : w'.systems = w.systems
  durationOf : w'.durationOf = w.durationOf
  writes : w'.writes = w.writes
  reports : w'.reports = w.reports

theorem Retimed.sameLists {w w' : World κ} {d : Ref Duration} {t : Timer}
    (h : w.Retimed w' d t) : w.SameLists w' where
  systems := by rw [h.frame]
  durationOf := by
    funext b
    rw [h.frame]
    rfl
  writes := h.writes
  reports := h.reports

theorem Reconfigured.sameLists {w w' : World κ} (h : w.Reconfigured w') : w.SameLists w' where
  systems := by rw [h.frame]
  durationOf := by
    funext b
    rw [h.frame]
    rfl
  writes := h.writes
  reports := h.reports

theorem sameLists_of_isClock (w : World κ) {op : Op} (h : op.isClock = true) :
    w.SameLists (w.step op).2 := by
  rw [w.step_isClock h]
  exact ⟨rfl, rfl, rfl, rfl⟩

variable (w : World κ) (s : Ref System)

theorem step_add (b : Ref Binding) :
    (w.step (.onSystem s (.add b))).2 =
        { w with systems := (w.step (.onSystem s (.add b))).2.systems } ∧
      w.Relisted (w.step (.onSystem s (.add b))).2 s (w.listed s ++ [b]) := by
  obtain ⟨w', hset, hframe, hlist⟩ := Act.perform_setMembers w s (w.listed s ++ [b])
  have hstep : (w.step (.onSystem s (.add b))).2 = w' := by
    change ((Act.systemOp s (.add b)).perform w).2 = w'
    have henlist : (Act.enlist s b).perform w = (.ok (), w') := hset
    rw [Act.systemOp, Act.perform_bind_ok _ henlist]
    rfl
  rw [hstep]
  exact ⟨hframe, hlist⟩

end World

namespace Call

def written (c : Call κ) : List Stroke :=
  c.after.writes.drop c.before.writes.length

def reported (c : Call κ) : List (Ref Binding) :=
  c.after.reports.drop c.before.reports.length

/-- Whether a call leaves a binding on the list of a system, if it is listed there. -/
def keeps (c : Call κ) (s : Ref System) (b : Ref Binding) : Bool :=
  match c.op with
  | .onSystem r .tick => r ≠ s || c.before.phase (c.before.durationOf b) = .running
  | _ => true

/-- Every system is quiet, the operation leaves completions to systems, and it does not fail. -/
structure Orderly (c : Call κ) : Prop where
  quiet (s : Ref System) : (c.before.systems.get s).policy.isQuiet = true
  spares : c.op.sparesCompletions = true
  ok : c.outcome.isOk = true

variable {c : Call κ}

theorem reported_of_append {bs : List (Ref Binding)}
    (h : c.after.reports = c.before.reports ++ bs) : c.reported = bs := by
  rw [reported, h, List.drop_left]

theorem Orderly.cases (h : c.Orderly) :
    (∃ s, c.op = .onSystem s .tick ∧
      (∀ b ∈ c.before.listed s, c.before.progress (c.before.durationOf b) =
        .ok (c.before.reading (c.before.durationOf b))) ∧
      c.before.Ticked c.after s c.before.reading) ∨
    (∃ s b, c.op = .onSystem s (.add b) ∧
      c.after = { c.before with systems := c.after.systems } ∧
      c.before.Relisted c.after s (c.before.listed s ++ [b])) ∨
    ((∀ s o, c.op ≠ .onSystem s o) ∧ c.before.SameLists c.after ∧
      ∀ d, c.op ≠ .onDuration d .start →
        (c.after.timer d).pending = (c.before.timer d).pending) := by
  obtain ⟨w, op⟩ := c
  obtain ⟨hquiet, hspares, hok⟩ := h
  rcases Op.sparesCompletions_cases hspares with ⟨s, o, rfl⟩ | hop | hop | ⟨d, o, rfl, ho⟩
  · cases o with
    | tick => exact .inl ⟨s, rfl, w.ticked_of_isOk s (hquiet s) hok⟩
    | add b => exact .inr (.inl ⟨s, b, rfl, w.step_add s b⟩)
  · refine .inr (.inr ⟨?_, w.sameLists_of_isClock hop, fun d _ => ?_⟩)
    · rintro s o rfl
      cases hop
    · rw [after, w.step_isClock hop]
      rfl
  · have hstep := w.step_isSetting hop
    refine .inr (.inr ⟨?_, hstep.sameLists, fun d _ => ?_⟩)
    · rintro s o rfl
      cases hop
    · rw [after, hstep.frame]
      rfl
  · have hstep := w.step_onDuration d o
    refine .inr (.inr ⟨nofun, hstep.sameLists, fun q hstart => ?_⟩)
    rw [after, hstep.timer]
    split
    · next hq =>
      subst hq
      have hne : o ≠ .start := fun h => hstart (h ▸ rfl)
      rw [Timer.pending_respond _ _ _ hne, ho]
      simp
    · rfl

theorem Orderly.durationOf (h : c.Orderly) : c.after.durationOf = c.before.durationOf := by
  rcases h.cases with ⟨s, -, -, hticked⟩ | ⟨s, b, -, hframe, -⟩ | ⟨-, hsame, -⟩
  · exact hticked.emits.durationOf
  · funext q
    rw [hframe]
    rfl
  · exact hsame.durationOf

theorem Orderly.policy (h : c.Orderly) (s : Ref System) :
    (c.after.systems.get s).policy = (c.before.systems.get s).policy := by
  rcases h.cases with ⟨r, -, -, hticked⟩ | ⟨r, b, -, -, hlist⟩ | ⟨-, hsame, -⟩
  · rw [hticked.relisted s]
    split <;> rfl
  · rw [hlist s]
    split <;> rfl
  · rw [hsame.systems]

theorem Orderly.listed (h : c.Orderly) (s : Ref System) :
    c.after.listed s = (c.before.listed s).filter (c.keeps s) ++ c.op.appends s := by
  have hall : ∀ {p : Ref Binding → Bool}, (∀ b, p b = true) →
      (c.before.listed s).filter p = c.before.listed s := fun hp =>
    List.filter_eq_self.mpr fun b _ => hp b
  rcases h.cases with ⟨r, hop, -, hticked⟩ | ⟨r, b, hop, -, hlist⟩ | ⟨hop, hsame, -⟩
  · rw [hticked.relisted.listed, hop]
    change _ = _ ++ []
    rw [List.append_nil]
    by_cases hrs : r = s
    · subst hrs
      rw [if_pos rfl]
      apply List.filter_congr
      intro b _
      simp [keeps, hop]
    · rw [if_neg hrs, hall]
      intro b
      simp [keeps, hop, hrs]
  · -- Appends keep everything, and reach one list only.
    rw [hlist.listed, hop, hall fun b => by simp [keeps, hop], Op.appends]
    split
    · next hrs => rw [hrs]
    · rw [List.append_nil]
  · have hkeeps : ∀ b, c.keeps s b = true := by
      intro b
      unfold keeps
      split
      · next r heq => exact absurd heq (hop r .tick)
      · rfl
    have happends : c.op.appends s = [] := by
      unfold Op.appends
      split
      · next r b heq => exact absurd heq (hop r (.add b))
      · rfl
    rw [hall hkeeps, happends, List.append_nil, World.listed, hsame.systems]
    rfl

theorem Orderly.ticked (h : c.Orderly) {s : Ref System} (hop : c.op = .onSystem s .tick) :
    (∀ b ∈ c.before.listed s, c.before.progress (c.before.durationOf b) =
      .ok (c.before.reading (c.before.durationOf b))) ∧
      c.before.Ticked c.after s c.before.reading := by
  obtain ⟨w, op⟩ := c
  obtain rfl : op = .onSystem s .tick := hop
  exact w.ticked_of_isOk s (h.quiet s) h.ok

end Call

end Tween
