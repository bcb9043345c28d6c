import Tween.Proofs.Preservation

namespace Tween

variable {κ α β : Type}

def DurationOp.moves : DurationOp → Bool
  | .start | .reverse | .poll | .consume => true
  | _ => false

def Call.moves (c : Call κ) (d : Ref Duration) : Bool :=
  match c.op with
  | .onDuration q op => q = d && op.moves
  | .animate a _ => a.duration = d
  | .onSystem s .tick => (c.before.listed s).any (c.before.durationOf · = d)
  | _ => false

namespace World

/-- Two durations, perhaps of two worlds, with the same timing state, length and easing, at the same
reading of their clocks. -/
structure Akin (w : World κ) (d : Ref Duration) (w' : World κ) (d' : Ref Duration) : Prop where
  hasLength : w'.hasLength d' = w.hasLength d
  nowOf : w'.nowOf d' = w.nowOf d
  timer : w'.timer d' = w.timer d
  length : w'.length d' = w.length d
  easing : w'.easing d' = w.easing d

namespace Akin

variable {w w' : World κ} {d d' : Ref Duration} (h : w.Akin d w' d')
include h

theorem elapsed : w'.elapsed d' = w.elapsed d := by
  rw [World.elapsed, h.timer, h.nowOf, World.elapsed]

theorem finished : w'.finished d' = w.finished d := by
  rw [World.finished, h.timer, h.nowOf, h.length, World.finished]

theorem phase : w'.phase d' = w.phase d := by
  rw [World.phase, h.timer, h.nowOf, h.length, World.phase]

theorem fraction : w'.fraction d' = w.fraction d := by
  rw [World.fraction, h.hasLength, h.timer, h.nowOf, h.length, World.fraction]

theorem progress : w'.progress d' = w.progress d := by
  rw [World.progress, h.finished, h.easing, h.timer, h.fraction, World.progress]

theorem durationText : w'.durationText d' = w.durationText d := by
  rw [World.durationText, h.phase, h.length, h.timer, World.durationText]

theorem view : w'.viewDuration d' = w.viewDuration d := by
  rw [viewDuration, h.phase, h.length, h.elapsed, h.timer, h.fraction, h.progress, viewDuration]

theorem outcome (op : DurationOp) :
    (w'.step (.onDuration d' op)).1 = (w.step (.onDuration d op)).1 := by
  cases op with
  | start | reverse => rfl
  | phase =>
    change ((Act.durationOp d' .phase).perform w').1 = ((Act.durationOp d .phase).perform w).1
    simp only [Act.durationOp, Act.perform_bind_pure, Act.perform_phase, h.phase]
  | length =>
    change ((Act.durationOp d' .length).perform w').1 = ((Act.durationOp d .length).perform w).1
    simp only [Act.durationOp, Act.perform_bind_pure, Act.perform_length, h.length]
  | elapsed => exact congrArg (fun e => Except.ok (Reply.maybeWhole e)) h.elapsed
  | progress =>
    change ((Act.durationOp d' .progress).perform w').1 = ((Act.durationOp d .progress).perform w).1
    simp only [Act.durationOp, Act.perform_bind_pure, Act.perform_progress, h.progress]
  | fraction =>
    change ((Act.durationOp d' .fraction).perform w').1 = ((Act.durationOp d .fraction).perform w).1
    simp only [Act.durationOp, Act.perform_bind_pure, Act.perform_query, h.fraction]
  | poll => rw [outcome_poll, outcome_poll, h.finished, h.timer]
  | consume => rw [outcome_consume, outcome_consume, h.finished, h.timer]
  | direction => exact congrArg (fun t => Except.ok (Reply.direction t.reversed)) h.timer
  | easing => exact congrArg (fun e => Except.ok (Reply.easing e)) h.easing
  | shown =>
    change ((Act.durationOp d' .shown).perform w').1 = ((Act.durationOp d .shown).perform w).1
    simp only [Act.durationOp, Act.perform_bind_pure, Act.perform_durationText, h.durationText]

end Akin

/-- Two durations, perhaps of two worlds, that cannot be told apart. -/
structure Twin (w : World κ) (d : Ref Duration) (w' : World κ) (d' : Ref Duration) : Prop where
  monotonic : w'.monotonic = w.monotonic
  clocks : w'.clocks = w.clocks
  lengths : w'.lengths = w.lengths
  descriptions : w'.descriptions = w.descriptions
  duration : w'.durations.get d' = w.durations.get d

namespace Twin

variable {w w' : World κ} {d d' : Ref Duration} (h : w.Twin d w' d')
include h

theorem now (clock : Clock) : w'.now clock = w.now clock := by
  cases clock with
  | system => rw [World.now, h.monotonic, World.now]
  | manual r => rw [World.now, h.clocks, World.now]

theorem nowOf : w'.nowOf d' = w.nowOf d := by
  rw [World.nowOf, h.duration, h.now, World.nowOf]

theorem timer : w'.timer d' = w.timer d := by
  rw [World.timer, h.duration, World.timer]

theorem length : w'.length d' = w.length d := by
  rw [World.length, h.duration, h.lengths, h.descriptions, World.length]

theorem akin : w.Akin d w' d' where
  hasLength := by rw [World.hasLength, h.duration, World.hasLength]
  nowOf := h.nowOf
  timer := h.timer
  length := h.length
  easing := by rw [World.easing, h.duration, h.descriptions, World.easing]

theorem progress : w'.progress d' = w.progress d :=
  h.akin.progress

theorem view : w'.viewDuration d' = w.viewDuration d :=
  h.akin.view

theorem outcome (op : DurationOp) :
    (w'.step (.onDuration d' op)).1 = (w.step (.onDuration d op)).1 :=
  h.akin.outcome op

theorem step (op : DurationOp) :
    (w.step (.onDuration d op)).2.Twin d (w'.step (.onDuration d' op)).2 d' := by
  have hw := w.step_onDuration d op
  have hw' := w'.step_onDuration d' op
  refine ⟨?_, ?_, ?_, ?_, ?_⟩
  · rw [hw.frame, hw'.frame]
    exact h.monotonic
  · rw [hw.frame, hw'.frame]
    exact h.clocks
  · rw [hw.frame, hw'.frame]
    exact h.lengths
  · rw [hw.frame, hw'.frame]
    exact h.descriptions
  · rw [hw.durations, hw'.durations, if_pos rfl, if_pos rfl, h.duration, h.timer, h.nowOf, h.length]

end Twin

/-- The duration `d` is still `x`, up to its timing state if that is free to change. -/
structure Holding (x : Duration) (free : Prop) (d : Ref Duration) (w : World κ) : Prop where
  known : d.index < w.durations.next
  get : ∃ t, w.durations.get d = { x with timer := t } ∧ (¬free → t = x.timer)

namespace Holding

variable {x : Duration} {free : Prop} {d : Ref Duration} {w w' : World κ}

theorem refl (hd : d.index < w.durations.next) : Holding (w.durations.get d) free d w :=
  ⟨hd, _, rfl, fun _ => rfl⟩

theorem of_durations (h : Holding x free d w) (hw : w'.durations = w.durations) :
    Holding x free d w' := by
  obtain ⟨hknown, hget⟩ := h
  exact ⟨hw ▸ hknown, hw ▸ hget⟩

theorem withTimer (h : Holding x free d w) {q : Ref Duration} (hq : q = d → free)
    (f : Timer → Timer) : Holding x free d (w.withTimer q f) := by
  obtain ⟨hknown, t, hget, ht⟩ := h
  refine ⟨hknown, ?_⟩
  rw [get_withTimer]
  split
  · next heq => exact ⟨_, by rw [hget], fun hfree => absurd (hq heq) hfree⟩
  · exact ⟨t, hget, ht⟩

theorem addDuration (h : Holding x free d w) (y : Duration) :
    Holding x free d { w with durations := (w.durations.add y).2 } := by
  obtain ⟨hknown, t, hget, ht⟩ := h
  refine ⟨Nat.lt_succ_of_lt hknown, t, ?_, ht⟩
  rw [← hget]
  exact Store.get_add_of_lt _ _ hknown

end Holding

end World

namespace Act

open World

/-- An operation on a duration changes nothing but its timing state, up to notices. -/
theorem Keeps.durationOp {P : World κ → Prop} {q : Ref Duration} {op : DurationOp}
    (htimer : op.moves = true → ∀ w f, P w → P (w.withTimer q f))
    (hlook : ∀ w count, P w → P (w.noticed count)) : Keeps P (durationOp q op) := by
  cases op with
  | start => exact (start (htimer rfl)).reply _
  | reverse => exact (reverse (htimer rfl) hlook).reply _
  | poll => exact (poll (htimer rfl) hlook).reply _
  | consume => exact (consume (htimer rfl) hlook).reply _
  | phase => exact .reply (of_looks hlook (.phase q)) _
  | length => exact .reply (of_looks hlook (.length q)) _
  | progress => exact .reply (of_looks hlook (.progress q)) _
  | fraction => exact .reply (of_looks hlook (.query _)) _
  | shown => exact .reply (of_looks hlook (.durationText q)) _
  | elapsed | direction | easing => exact fun _ hw => hw

variable {x : Duration} {free : Prop} {d : Ref Duration}

theorem holding_newDuration (spec : DurationSpec) :
    Keeps (Holding x free d : World κ → Prop) (newDuration spec) :=
  (Keeps.of_looks (fun _ _ hw => hw.of_durations rfl) (.query _)).bind
    fun y _ hw => hw.addDuration y

theorem holding_tick {w : World κ} (s : Ref System)
    (hs : ∀ b ∈ w.listed s, w.durationOf b = d → free) (h : Holding x free d w) :
    Holding x free d ((tick s).perform w).2 :=
  (Keeps.tick (P := fun v => Holding x free d v ∧ v.durationOf = w.durationOf)
    (fun _ _ hv => ⟨hv.1.of_durations rfl, hv.2⟩) (fun _ _ hv => ⟨hv.1.of_durations rfl, hv.2⟩)
    (fun _ _ hv => ⟨hv.1.of_durations rfl, hv.2⟩) (fun _ hv => hv.2)
    (fun b hb _ f hv => ⟨hv.1.withTimer (hs b hb) f, hv.2⟩) ⟨h, rfl⟩).1

end Act

namespace World

/-- An operation leaves each duration as it is, but for the timing state of one that it moves. -/
theorem holding_step (w : World κ) {d : Ref Duration} (hd : d.index < w.durations.next) (op : Op) :
    Holding (w.durations.get d) ((Call.mk w op).moves d = true) d (w.step op).2 := by
  have hrefl : Holding (w.durations.get d) ((Call.mk w op).moves d = true) d w := .refl hd
  have hclock : op.isClock = true → (w.step op).2.durations = w.durations := fun h => by
    rw [w.step_isClock h]
  have hsetting : op.isSetting = true → (w.step op).2.durations = w.durations := fun h => by
    rw [(w.step_isSetting h).frame]
  have hlook : ∀ (v : World κ) count, Holding (w.durations.get d) ((Call.mk w op).moves d = true) d v →
      Holding (w.durations.get d) ((Call.mk w op).moves d = true) d (v.noticed count) :=
    fun _ _ hv => hv.of_durations rfl
  cases op with
  | newDescriptionOfText =>
    exact (Act.Keeps.of_looks hlook (.query _)).bind (fun _ _ hv => hv.of_durations rfl) w hrefl
  | newDuration spec => exact (Act.holding_newDuration spec).reply _ w hrefl
  | newAnimation spec =>
    exact ((Act.holding_newDuration spec).bind fun _ _ hv => hv.of_durations rfl).reply _ w hrefl
  | clone q => exact hrefl.addDuration _
  | onClock r op => exact hrefl.of_durations (hclock rfl)
  | onLength r op | onDescription r op => exact hrefl.of_durations (hsetting rfl)
  | onDuration q op =>
    refine Act.Keeps.durationOp (fun hop v f hv => hv.withTimer (fun hq => ?_) f) hlook w hrefl
    simp [Call.moves, hq, hop]
  | onTransition r op =>
    exact Act.Keeps.transitionOp op (fun _ _ _ hv => hv.of_durations rfl) hlook w hrefl
  | animate a values =>
    refine (Act.Keeps.animate (fun v f hv => hv.withTimer (fun ha => ?_) f)
      (fun _ _ _ hv => hv.of_durations rfl) hlook values).reply _ w hrefl
    simp [Call.moves, ha]
  | onSystem s op =>
    cases op with
    | add b => exact hrefl.of_durations rfl
    | tick =>
      change Holding _ _ d ((Act.tick s >>= fun _ => pure Reply.done : Act κ Reply).perform w).2
      rw [Act.perform_bind_pure]
      refine Act.holding_tick s (fun b hb heq => ?_) hrefl
      rw [Call.moves, List.any_eq_true]
      exact ⟨b, hb, decide_eq_true heq⟩
  | setMonotonic | newClock | newLength | newDescription | newTransition | newTarget | newBinding |
    newSystem => exact hrefl.of_durations rfl

theorem Holding.trans {x : Duration} {free free' : Prop} {d : Ref Duration} {w w' : World κ}
    (h : Holding x free d w) (h' : Holding (w.durations.get d) free' d w') :
    Holding x (free ∨ free') d w' := by
  obtain ⟨-, t, hget, ht⟩ := h
  obtain ⟨hknown, u, hget', hu⟩ := h'
  refine ⟨hknown, u, by rw [hget', hget], fun hfree => ?_⟩
  rw [not_or] at hfree
  rw [hu hfree.2, hget]
  exact ht hfree.1

/-- A run leaves each duration as it is, but for the timing state of one that it moves. -/
theorem holding_after {w : World κ} {d : Ref Duration} (hd : d.index < w.durations.next)
    (ops : List Op) :
    Holding (w.durations.get d) (∃ c ∈ w.calls ops, c.moves d = true) d (w.after ops) := by
  induction ops generalizing w with
  | nil => exact .refl hd
  | cons op rest ih =>
    have hstep := holding_step w hd op
    simp only [calls, List.mem_cons, exists_eq_or_imp]
    exact hstep.trans (ih hstep.known)

theorem get_after_of_not_moves {w : World κ} {d : Ref Duration} (hd : d.index < w.durations.next)
    {ops : List Op} (hops : ∀ c ∈ w.calls ops, c.moves d = false) :
    (w.after ops).durations.get d = w.durations.get d := by
  obtain ⟨-, t, hget, ht⟩ := holding_after hd ops
  rw [hget, ht ?_]
  rintro ⟨c, hc, hmoves⟩
  rw [hops c hc] at hmoves
  cases hmoves

/-- Where the length, the easing and the time of a duration come from is settled once. -/
theorem origin_after {w : World κ} {d : Ref Duration} (hd : d.index < w.durations.next)
    (ops : List Op) :
    ((w.after ops).durations.get d).source = (w.durations.get d).source ∧
      ((w.after ops).durations.get d).smoothing = (w.durations.get d).smoothing ∧
      ((w.after ops).durations.get d).clock = (w.durations.get d).clock := by
  obtain ⟨-, t, hget, -⟩ := holding_after hd ops
  rw [hget]
  exact ⟨rfl, rfl, rfl⟩

theorem Twin.of_get {w : World κ} {d q : Ref Duration}
    (h : w.durations.get q = w.durations.get d) : w.Twin d w q :=
  ⟨rfl, rfl, rfl, rfl, h⟩

theorem step_clone (w : World κ) (q : Ref Duration) :
    w.step (.clone q) = (.ok (.made (.duration ⟨w.durations.next⟩)),
      { w with durations := (w.durations.add (w.durations.get q)).2 }) := rfl

/-- A copy is a duration of its own, and a twin of the original until one of the two is moved. -/
theorem twin_clone {w : World κ} {d : Ref Duration} (hd : d.index < w.durations.next) :
    ∃ q, (w.step (.clone d)).1 = .ok (.made (.duration q)) ∧ q ≠ d ∧
      ∀ ops, (∀ c ∈ (w.step (.clone d)).2.calls ops, c.moves d = false ∧ c.moves q = false) →
        ((w.step (.clone d)).2.after ops).Twin d ((w.step (.clone d)).2.after ops) q := by
  refine ⟨⟨w.durations.next⟩, rfl, (Ref.ne_of_lt hd).symm, fun ops hops => .of_get ?_⟩
  have hcopy : (w.step (.clone d)).2.durations.get ⟨w.durations.next⟩ =
      (w.step (.clone d)).2.durations.get d :=
    (Store.get_add_self _ _).trans (Store.get_add_of_lt _ _ hd).symm
  rw [get_after_of_not_moves (Nat.lt_succ_self _) fun c hc => (hops c hc).2,
    get_after_of_not_moves (Nat.lt_succ_of_lt hd) fun c hc => (hops c hc).1, hcopy]

end World

end Tween
