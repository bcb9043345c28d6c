import Tween.Proofs.Calls

namespace Tween

variable {κ : Type}

abbrev Stroke : Type :=
  Ref Target × String × Float

def Policy.isQuiet : Policy → Bool
  | .ignore | .record => true
  | _ => false

def Policy.kept (policy : Policy) (bs : List (Ref Binding)) : List (Ref Binding) :=
  if policy = .record then bs else []

theorem Policy.kept_append (policy : Policy) (as bs : List (Ref Binding)) :
    policy.kept (as ++ bs) = policy.kept as ++ policy.kept bs := by
  unfold kept
  split <;> rfl

def paint (targets : Store Target) (strokes : List Stroke) : Store Target :=
  strokes.foldl (fun ts (t, field, x) => ts.modify t fun t => ⟨writeField t.fields field x⟩) targets

theorem lookup_cons_eq (n other : String) (y : Float) (rest : List (String × Float)) :
    ((n, y) :: rest).lookup other = if n = other then some y else rest.lookup other := by
  rw [List.lookup_cons]
  by_cases h : n = other
  · subst h
    rw [beq_self_eq_true, if_pos rfl]
  · rw [beq_false_of_ne (Ne.symm h), if_neg h]

theorem lookup_writeField (fields : List (String × Float)) (name other : String) (x : Float) :
    (writeField fields name x).lookup other =
      if name = other then some x else fields.lookup other := by
  induction fields with
  | nil => exact lookup_cons_eq name other x []
  | cons field rest ih =>
    obtain ⟨n, y⟩ := field
    rw [writeField]
    split
    · next hn =>
      subst hn
      rw [lookup_cons_eq, lookup_cons_eq]
      split <;> rfl
    · next hn =>
      rw [lookup_cons_eq, lookup_cons_eq, ih]
      by_cases h : n = other
      · subst h
        rw [if_pos rfl, if_pos rfl, if_neg (Ne.symm hn)]
      · rw [if_neg h, if_neg h]

theorem lookup_paint (targets : Store Target) (strokes : List Stroke) (t : Ref Target)
    (field : String) :
    (∃ s ∈ strokes, s.1 = t ∧ s.2.1 = field ∧
        ((paint targets strokes).get t).fields.lookup field = some s.2.2) ∨
      (∀ s ∈ strokes, ¬(s.1 = t ∧ s.2.1 = field)) ∧
        ((paint targets strokes).get t).fields.lookup field =
          (targets.get t).fields.lookup field := by
  induction strokes generalizing targets with
  | nil => exact .inr ⟨by simp, rfl⟩
  | cons s rest ih =>
    have hfirst : ((paint targets [s]).get t).fields.lookup field =
        if s.1 = t ∧ s.2.1 = field then some s.2.2 else (targets.get t).fields.lookup field := by
      change ((targets.set s.1 _).get t).fields.lookup field = _
      rw [Store.get_set]
      by_cases ht : s.1 = t
      · subst ht
        rw [if_pos rfl, lookup_writeField]
        simp only [true_and]
      · rw [if_neg ht, if_neg fun h => ht h.1]
    change (∃ q ∈ s :: rest, _ ∧ _ ∧ ((paint (paint targets [s]) rest).get t).fields.lookup _ = _) ∨
      _ ∧ ((paint (paint targets [s]) rest).get t).fields.lookup _ = _
    -- A later write to the field covers the first one.
    rcases ih (paint targets [s]) with ⟨q, hq, h⟩ | ⟨hnone, h⟩
    · exact .inl ⟨q, List.mem_cons_of_mem s hq, h⟩
    · rw [h, hfirst]
      by_cases hs : s.1 = t ∧ s.2.1 = field
      · exact .inl ⟨s, List.mem_cons_self, hs.1, hs.2, if_pos hs⟩
      · refine .inr ⟨?_, if_neg hs⟩
        rw [List.forall_mem_cons]
        exact ⟨hs, hnone⟩

namespace World

variable (w : World κ)

def listed (s : Ref System) : List (Ref Binding) :=
  (w.systems.get s).members

def stroke (b : Ref Binding) (p : Float) : Stroke :=
  let binding := w.bindings.get b
  (binding.target, binding.field, (w.transitions.get binding.transition).at p)

def struck (stroke : Stroke) : World κ :=
  { w with
    targets := paint w.targets [stroke]
    journal := w.journal ++ [.wrote stroke.1 stroke.2.1 stroke.2.2] }

/-- The world once a binding has been written, at a progress of its duration. -/
def updated (b : Ref Binding) (p : Float) : World κ :=
  (w.looked (w.durationOf b) (w.lookups (w.durationOf b))).struck (w.stroke b p)

/-- The world `w'` is `w` with other durations and lists, some writes and some reports. -/
structure Emits (w w' : World κ) (strokes : List Stroke) (reported : List (Ref Binding)) :
    Prop where
  frame : w' = { w with
    targets := w'.targets, durations := w'.durations, systems := w'.systems
    journal := w'.journal }
  targets : w'.targets = paint w.targets strokes
  writes : w'.writes = w.writes ++ strokes
  reports : w'.reports = w.reports ++ reported

theorem Emits.refl : w.Emits w [] [] :=
  ⟨rfl, rfl, (List.append_nil _).symm, (List.append_nil _).symm⟩

variable {w}

theorem Emits.trans {w₁ w₂ : World κ} {as bs : List Stroke} {rs qs : List (Ref Binding)}
    (h : w.Emits w₁ as rs) (h' : w₁.Emits w₂ bs qs) : w.Emits w₂ (as ++ bs) (rs ++ qs) where
  frame := by
    rw [h'.frame, h.frame]
  targets := by rw [h'.targets, h.targets, paint, paint, paint, List.foldl_append]
  writes := by rw [h'.writes, h.writes, List.append_assoc]
  reports := by rw [h'.reports, h.reports, List.append_assoc]

theorem Emits.looked (w : World κ) (d : Ref Duration) (count : Nat) :
    w.Emits (w.looked d count) [] [] where
  frame := rfl
  targets := rfl
  writes := by rw [writes_looked, List.append_nil]
  reports := by rw [reports_looked, List.append_nil]

theorem Emits.struck (w : World κ) (stroke : Stroke) : w.Emits (w.struck stroke) [stroke] [] where
  frame := rfl
  targets := rfl
  writes := by simp [World.struck, World.writes]
  reports := by simp [World.struck, World.reports]

theorem Emits.updated (w : World κ) (b : Ref Binding) (p : Float) :
    w.Emits (w.updated b p) [w.stroke b p] [] :=
  (Emits.looked w _ _).trans (.struck _ _)

theorem Emits.congr {w₁ w₂ : World κ} {as : List Stroke} {rs : List (Ref Binding)}
    (h : w.Emits w₁ as rs)
    (h' : w₂ = { w₁ with durations := w₂.durations, systems := w₂.systems }) :
    w.Emits w₂ as rs where
  frame := by
    rw [h', h.frame]
  targets := by
    rw [h']
    exact h.targets
  writes := by
    rw [h']
    exact h.writes
  reports := by
    rw [h']
    exact h.reports

theorem Emits.durationOf {w' : World κ} {as : List Stroke} {rs : List (Ref Binding)}
    (h : w.Emits w' as rs) : w'.durationOf = w.durationOf := by
  funext b
  rw [h.frame]
  rfl

theorem Emits.stroke {w' : World κ} {as : List Stroke} {rs : List (Ref Binding)}
    (h : w.Emits w' as rs) : w'.stroke = w.stroke := by
  funext b p
  rw [h.frame]
  rfl

theorem Emits.nowOf {w' : World κ} {as : List Stroke} {rs : List (Ref Binding)}
    (h : w.Emits w' as rs) {d : Ref Duration}
    (hclock : (w'.durations.get d).clock = (w.durations.get d).clock) :
    w'.nowOf d = w.nowOf d := by
  rw [World.nowOf, hclock, h.frame]
  rfl

theorem Retimed.emits {w' : World κ} {d : Ref Duration} {t : Timer} (h : w.Retimed w' d t) :
    w.Emits w' [] [] where
  frame := by
    rw [h.frame]
  targets := by
    rw [h.frame]
    rfl
  writes := by rw [h.writes, List.append_nil]
  reports := by rw [h.reports, List.append_nil]

/-- In `w'` the system lists other bindings, and the other systems are as they were. -/
def Relisted (w w' : World κ) (s : Ref System) (members : List (Ref Binding)) : Prop :=
  ∀ r, w'.systems.get r = if s = r then { w.systems.get r with members } else w.systems.get r

theorem Relisted.refl (w : World κ) (s : Ref System) : w.Relisted w s (w.listed s) := by
  intro r
  split
  · next h => subst h; rfl
  · rfl

theorem Relisted.listed {w w' : World κ} {s : Ref System} {members : List (Ref Binding)}
    (h : w.Relisted w' s members) (r : Ref System) :
    w'.listed r = if s = r then members else w.listed r := by
  rw [World.listed, h r]
  split <;> rfl

theorem Relisted.trans {w w₁ w₂ : World κ} {s : Ref System} {front rest : List (Ref Binding)}
    (h : w.Relisted w₁ s front) (h' : w₁.Relisted w₂ s rest) : w.Relisted w₂ s rest := by
  intro r
  rw [h' r, h r]
  split <;> rfl

/-- In `w'` a duration differs at most in whether a completion is pending. -/
def SameTiming (w w' : World κ) (d : Ref Duration) : Prop :=
  ∃ pending, w'.durations.get d =
    { w.durations.get d with timer := { w.timer d with pending } }

theorem SameTiming.of_eq {w w' : World κ} {d : Ref Duration}
    (h : w'.durations.get d = w.durations.get d) : w.SameTiming w' d :=
  ⟨(w.timer d).pending, h⟩

theorem SameTiming.of_consumed {w w' : World κ} {d : Ref Duration} {c : Prop} [Decidable c]
    (h : w'.durations.get d =
      if c then { w.durations.get d with timer := (w.timer d).consumed } else w.durations.get d) :
    w.SameTiming w' d := by
  by_cases hc : c
  · exact ⟨false, by rw [h, if_pos hc]; rfl⟩
  · exact .of_eq (by rw [h, if_neg hc])

/-- What a duration answers about its progress does not depend on pending completions. -/
theorem Emits.timing {w' : World κ} {as : List Stroke} {rs : List (Ref Binding)}
    (h : w.Emits w' as rs) {d : Ref Duration} (ht : w.SameTiming w' d) :
    w'.progress d = w.progress d ∧ w'.finished d = w.finished d := by
  obtain ⟨pending, ht⟩ := ht
  have hmonotonic : w'.monotonic = w.monotonic := by rw [h.frame]
  have hclocks : w'.clocks = w.clocks := by rw [h.frame]
  have hlengths : w'.lengths = w.lengths := by rw [h.frame]
  have hdescriptions : w'.descriptions = w.descriptions := by rw [h.frame]
  have hfinished : w'.finished d = w.finished d := by
    unfold finished length World.nowOf now timer
    rw [ht, hmonotonic, hclocks, hlengths, hdescriptions]
    rfl
  have heasing : w'.easing d = w.easing d := by
    unfold easing
    rw [ht, hdescriptions]
  have hfraction : w'.fraction d = w.fraction d := by
    unfold fraction hasLength length World.nowOf now timer
    rw [ht, hmonotonic, hclocks, hlengths, hdescriptions]
    rfl
  have hendpoint : (w'.timer d).endpoint = (w.timer d).endpoint := by
    rw [timer, ht]
    rfl
  refine ⟨?_, hfinished⟩
  rw [progress, hfinished, heasing, hfraction, hendpoint]
  rfl

end World

end Tween
