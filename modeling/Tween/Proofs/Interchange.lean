import Mathlib.Data.List.Infix
import Tween.Proofs.Separate

namespace Tween

variable {κ α : Type}

/-- What is done to both sides of a pair of durations or of transitions, one after the other. Pairs
are counted from zero. -/
inductive Joint where
  | onDurations (pair : Nat) (op : DurationOp)
  | clone (pair : Nat)
  | newTransitions (pair : Nat) (start finish : Float)
  | onTransitions (pair : Nat) (op : TransitionOp)
  | shared (ops : List Op)

structure Pairs where
  durations : List (Ref Duration × Ref Duration) := []
  transitions : List (Ref Transition × Ref Transition) := []

abbrev Outcomes := Except Fault Reply × Except Fault Reply

def Pairs.add (ps : Pairs) : Outcomes → Pairs
  | (.ok (.made (.duration d)), .ok (.made (.duration d'))) =>
    { ps with durations := ps.durations ++ [(d, d')] }
  | (.ok (.made (.transition r)), .ok (.made (.transition r'))) =>
    { ps with transitions := ps.transitions ++ [(r, r')] }
  | _ => ps

theorem Pairs.durations_prefix_foldl (ps : Pairs) (outcomes : List Outcomes) :
    ps.durations <+: (outcomes.foldl add ps).durations := by
  induction outcomes generalizing ps with
  | nil => exact List.prefix_rfl
  | cons o rest ih =>
    refine List.IsPrefix.trans ?_ (ih (ps.add o))
    unfold add
    split
    · exact List.prefix_append _ _
    · exact List.prefix_rfl
    · exact List.prefix_rfl

inductive SameOutcome : Outcomes → Prop
  | refl (outcome : Except Fault Reply) : SameOutcome (outcome, outcome)
  | durations (d d' : Ref Duration) :
      SameOutcome (.ok (.made (.duration d)), .ok (.made (.duration d')))
  | transitions (r r' : Ref Transition) :
      SameOutcome (.ok (.made (.transition r)), .ok (.made (.transition r')))

namespace World

def both (w : World κ) (op op' : Op) : Outcomes × World κ :=
  let first := w.step op
  let second := first.2.step op'
  ((first.1, second.1), second.2)

def both? (w : World κ) : Option (Op × Op) → List Outcomes × World κ
  | some (op, op') =>
    let result := w.both op op'
    ([result.1], result.2)
  | none => ([], w)

theorem both?_none (w : World κ) : w.both? none = ([], w) := rfl

theorem both?_some (w : World κ) (op op' : Op) :
    w.both? (some (op, op')) = ([(w.both op op').1], (w.both op op').2) := rfl

def jointly (w : World κ) (ps : Pairs) : Joint → List Outcomes × World κ × Pairs
  | .onDurations i op =>
    let result := w.both? (ps.durations[i]?.map fun p => (.onDuration p.1 op, .onDuration p.2 op))
    (result.1, result.2, ps)
  | .clone i =>
    let result := w.both? (ps.durations[i]?.map fun p => (.clone p.1, .clone p.2))
    (result.1, result.2, result.1.foldl Pairs.add ps)
  | .newTransitions i start finish =>
    let result := w.both? (ps.durations[i]?.map fun p =>
      (.newTransition p.1 start finish, .newTransition p.2 start finish))
    (result.1, result.2, result.1.foldl Pairs.add ps)
  | .onTransitions i op =>
    let result :=
      w.both? (ps.transitions[i]?.map fun p => (.onTransition p.1 op, .onTransition p.2 op))
    (result.1, result.2, ps)
  | .shared ops => ([], w.after ops, ps)

/-- Does one thing after the other to both sides: all outcomes, and what is left. -/
def runJointly (w : World κ) (ps : Pairs) : List Joint → List Outcomes × World κ × Pairs
  | [] => ([], w, ps)
  | j :: rest =>
    let first := w.jointly ps j
    let later := first.2.1.runJointly first.2.2 rest
    (first.1 ++ later.1, later.2)

theorem durations_jointly (w : World κ) (ps : Pairs) (j : Joint) :
    ps.durations <+: (w.jointly ps j).2.2.durations := by
  cases j with
  | clone | newTransitions => exact ps.durations_prefix_foldl _
  | onDurations | onTransitions | shared => exact List.prefix_rfl

theorem durations_runJointly (w : World κ) (ps : Pairs) (js : List Joint) :
    ps.durations <+: (w.runJointly ps js).2.2.durations := by
  induction js generalizing w ps with
  | nil => exact List.prefix_rfl
  | cons j rest ih => exact (w.durations_jointly ps j).trans (ih _ _)

/-- Makes a duration on a length with an easing, and one on a description, with the same clock. -/
def coupled (w : World κ) (r : Ref (Setting Int)) (q : Ref (Setting Description)) (e : Easing)
    (c : Clock) : World κ × Pairs :=
  let result := w.both (.newDuration { length := some r, smoothing := e, clock := c })
    (.newDuration (.ofDescription q c))
  (result.2, ({} : Pairs).add result.1)

/-- The description has the length of the other setting, and the easing. -/
structure Agree (w : World κ) (r : Ref (Setting Int)) (q : Ref (Setting Description))
    (e : Easing) : Prop where
  length : (w.descriptions.get q).value.length = (w.lengths.get r).value
  easing : (w.descriptions.get q).value.easing = e

end World

instance (e : Easing) (c : Curve) : Decidable (e = .named c) :=
  match e with
  | .named c' => decidable_of_iff (c' = c) (Easing.named.injEq c' c ▸ Iff.rfl)
  | .bezier _ => isFalse Easing.noConfusion
  | .function .. => isFalse Easing.noConfusion

instance (w : World κ) (r : Ref (Setting Int)) (q : Ref (Setting Description)) (c : Curve) :
    Decidable (w.Agree r q (.named c)) :=
  decidable_of_iff (_ ∧ _) ⟨fun h => ⟨h.1, h.2⟩, fun h => ⟨h.length, h.easing⟩⟩

def Transition.respond (t : Transition) (value : Except Fault Float) : TransitionOp → Transition
  | .setEnds start finish => { t with start, finish }
  | .retarget finish =>
    match value with
    | .ok start => { t with start, finish }
    | .error _ => t
  | .restartSame =>
    match value with
    | .ok start => { t with start }
    | .error _ => t
  | .flip => { t with start := t.finish, finish := t.start }
  | .value | .shown | .start | .finish => t

/-- What an operation makes of a transition does not depend on its duration. -/
theorem Transition.respond_withDuration (t : Transition) (d : Ref Duration)
    (value : Except Fault Float) (op : TransitionOp) :
    ({ t with duration := d } : Transition).respond value op =
      { t.respond value op with duration := d } := by
  cases op <;> cases value <;> rfl

theorem Transition.duration_respond (t : Transition) (value : Except Fault Float)
    (op : TransitionOp) : (t.respond value op).duration = t.duration := by
  cases op <;> cases value <;> rfl

/-- Objects in pairs: each has one partner, on the other side, to which it is so related. -/
structure Paired [Inhabited α] (R : α → α → Prop) (s : Store α) (ps : List (Ref α × Ref α)) :
    Prop where
  known : ∀ p ∈ ps, p.1.index < s.next ∧ p.2.index < s.next
  sides : ∀ p ∈ ps, ∀ p' ∈ ps, p.1 ≠ p'.2
  left : ∀ p ∈ ps, ∀ p' ∈ ps, p.1 = p'.1 → p = p'
  right : ∀ p ∈ ps, ∀ p' ∈ ps, p.2 = p'.2 → p = p'
  related : ∀ p ∈ ps, R (s.get p.1) (s.get p.2)

namespace Paired

variable [Inhabited α] {R R' : α → α → Prop} {s s' : Store α} {ps : List (Ref α × Ref α)}

theorem nil : Paired R s [] := by
  constructor <;> exact nofun

theorem mono (h : Paired R s ps) (hR : ∀ x y, R x y → R' x y) : Paired R' s ps :=
  { h with related := fun p hp => hR _ _ (h.related p hp) }

theorem replaced (h : Paired R s ps) {p : Ref α × Ref α} (hp : p ∈ ps) {x y : α} (hxy : R x y)
    (hknown : ∀ q : Ref α, q.index < s.next → q.index < s'.next)
    (hget : ∀ q, s'.get q = if p.2 = q then y else if p.1 = q then x else s.get q) :
    Paired R s' ps where
  known p' hp' := ⟨hknown _ (h.known p' hp').1, hknown _ (h.known p' hp').2⟩
  sides := h.sides
  left := h.left
  right := h.right
  related p' hp' := by
    by_cases heq : p = p'
    · subst heq
      rw [hget, hget, if_neg (h.sides p hp p hp).symm, if_pos rfl, if_pos rfl]
      exact hxy
    · rw [hget, hget, if_neg (h.sides p' hp' p hp).symm, if_neg (mt (h.left p hp p' hp') heq),
        if_neg (mt (h.right p hp p' hp') heq), if_neg (h.sides p hp p' hp')]
      exact h.related p' hp'

theorem added (h : Paired R s ps) {x y : α} (hxy : R x y) :
    Paired R ((s.add x).2.add y).2 (ps ++ [(⟨s.next⟩, ⟨s.next + 1⟩)]) := by
  have hget : ∀ q, ((s.add x).2.add y).2.get q =
      if q = ⟨s.next + 1⟩ then y else if q = ⟨s.next⟩ then x else s.get q := fun q => by
    rw [← Store.get_add]
    exact Store.get_add _ _ q
  -- The new pair is past all others.
  have hpast : ∀ p ∈ ps, ∀ n, s.next ≤ n → p.1 ≠ ⟨n⟩ ∧ p.2 ≠ ⟨n⟩ := fun p hp n hn =>
    ⟨Ref.ne_of_lt ((h.known p hp).1.trans_le hn), Ref.ne_of_lt ((h.known p hp).2.trans_le hn)⟩
  have hself : s.next ≤ s.next := Nat.le_refl _
  have hsucc : s.next ≤ s.next + 1 := Nat.le_succ _
  have hnew : (⟨s.next⟩ : Ref α) ≠ ⟨s.next + 1⟩ := by simp
  constructor
  all_goals
    simp only [List.mem_append, List.mem_singleton]
  · rintro p (hp | rfl)
    · exact ⟨Nat.lt_add_right 2 (h.known p hp).1, Nat.lt_add_right 2 (h.known p hp).2⟩
    · exact ⟨Nat.lt_add_of_pos_right Nat.two_pos, Nat.lt_succ_self _⟩
  · rintro p (hp | rfl) p' (hp' | rfl)
    · exact h.sides p hp p' hp'
    · exact (hpast p hp _ hsucc).1
    · exact (hpast p' hp' _ hself).2.symm
    · exact hnew
  · rintro p (hp | rfl) p' (hp' | rfl) heq
    · exact h.left p hp p' hp' heq
    · exact absurd heq (hpast p hp _ hself).1
    · exact absurd heq.symm (hpast p' hp' _ hself).1
    · rfl
  · rintro p (hp | rfl) p' (hp' | rfl) heq
    · exact h.right p hp p' hp' heq
    · exact absurd heq (hpast p hp _ hsucc).2
    · exact absurd heq.symm (hpast p' hp' _ hsucc).2
    · rfl
  · rintro p (hp | rfl)
    · rw [hget, hget, if_neg (hpast p hp _ hsucc).1, if_neg (hpast p hp _ hself).1,
        if_neg (hpast p hp _ hsucc).2, if_neg (hpast p hp _ hself).2]
      exact h.related p hp
    · rw [hget, hget, if_neg hnew, if_pos rfl, if_pos rfl]
      exact hxy

end Paired

/-- The first of two durations has its length from the one setting and the easing itself, the second
one has both from the other setting. They have the same clock and the same timing state. -/
structure Matched (r : Ref (Setting Int)) (q : Ref (Setting Description)) (e : Easing)
    (x y : Duration) : Prop where
  length : x.source = .length r
  smoothing : x.smoothing = e
  description : y.source = .description q
  clock : y.clock = x.clock
  timer : y.timer = x.timer

/-- Two transitions with the same ends on the two durations of a pair. -/
def Parallel (ds : List (Ref Duration × Ref Duration)) (t t' : Transition) : Prop :=
  ∃ d ∈ ds, t.duration = d.1 ∧ t' = { t with duration := d.2 }

theorem Matched.retimed {r : Ref (Setting Int)} {q : Ref (Setting Description)} {e : Easing}
    {x y : Duration} (h : Matched r q e x y) (t : Timer) :
    Matched r q e { x with timer := t } { y with timer := t } :=
  { h with timer := rfl }

theorem Parallel.respond {ds : List (Ref Duration × Ref Duration)} {t t' : Transition}
    (h : Parallel ds t t') (value : Except Fault Float) (op : TransitionOp) :
    Parallel ds (t.respond value op) (t'.respond value op) := by
  obtain ⟨d, hd, hfirst, rfl⟩ := h
  exact ⟨d, hd, (t.duration_respond value op).trans hfirst, t.respond_withDuration d.2 value op⟩

namespace World

open Act

variable {w w' v : World κ} {r : Ref (Setting Int)} {q : Ref (Setting Description)} {e : Easing}

theorem Agree.akin (h : w.Agree r q e) {d d' : Ref Duration}
    (hmatched : Matched r q e (w.durations.get d) (w.durations.get d')) : w.Akin d w d' where
  hasLength := by rw [hasLength, hasLength, hmatched.length, hmatched.description]
  nowOf := by rw [nowOf, hmatched.clock, nowOf]
  timer := hmatched.timer
  length := by
    rw [World.length, World.length, hmatched.length, hmatched.description]
    exact congrArg (max 1) h.length
  easing := by
    rw [World.easing, World.easing, hmatched.length, hmatched.description]
    exact h.easing.trans hmatched.smoothing.symm

theorem Retimed.get {d : Ref Duration} {t : Timer} (h : w.Retimed w' d t) (d' : Ref Duration) :
    w'.durations.get d' =
      if d = d' then { w.durations.get d with timer := t } else w.durations.get d' := by
  rw [h.durations]
  split
  · next heq => rw [heq]
  · rfl

theorem Retimed.twin {d d' : Ref Duration} {t : Timer} (h : w.Retimed w' d t) (hne : d ≠ d') :
    w.Twin d' w' d' where
  monotonic := by rw [h.frame]
  clocks := by rw [h.frame]
  lengths := by rw [h.frame]
  descriptions := by rw [h.frame]
  duration := by rw [h.durations, if_neg hne]

/-- The world `w'` is `w` with the transition `t` in one place, up to notices. -/
structure Redirected (w w' : World κ) (r : Ref Transition) (t : Transition) : Prop where
  frame : w' = { w with transitions := w'.transitions, journal := w'.journal }
  transitions (p : Ref Transition) :
    w'.transitions.get p = if r = p then t else w.transitions.get p
  next : w'.transitions.next = w.transitions.next

theorem Redirected.looked (w : World κ) (r : Ref Transition) (d : Ref Duration) (count : Nat) :
    w.Redirected (w.looked d count) r (w.transitions.get r) where
  frame := rfl
  transitions p := by
    split
    · next h => rw [← h]; rfl
    · rfl
  next := rfl

theorem Redirected.modify (w : World κ) (d : Ref Duration) (count : Nat) (r : Ref Transition)
    (f : Transition → Transition) :
    w.Redirected ((changeTransition r f).perform (w.looked d count)).2 r
      (f (w.transitions.get r)) where
  frame := rfl
  transitions _ := Store.get_set _ _ _ _
  next := rfl

theorem Redirected.twin {r : Ref Transition} {t : Transition} (h : w.Redirected w' r t)
    (d : Ref Duration) : w.Twin d w' d := by
  rw [h.frame]
  exact ⟨rfl, rfl, rfl, rfl, rfl⟩

theorem step_onTransition (w : World κ) (r : Ref Transition) (op : TransitionOp) :
    w.Redirected (w.step (.onTransition r op)).2 r
      ((w.transitions.get r).respond (w.value r) op) := by
  have hvalue := perform_value w r
  change w.Redirected ((transitionOp r op).perform w).2 r _
  cases op with
  | value =>
    rw [transitionOp, perform_bind_pure, perform_value]
    exact .looked w r _ _
  | setEnds start finish => exact ⟨rfl, fun _ => Store.get_set _ _ _ _, rfl⟩
  | retarget finish =>
    rw [transitionOp, perform_bind_pure, retarget, perform_bind, hvalue]
    cases w.value r with
    | error fault => exact .looked w r _ _
    | ok start => exact .modify w _ _ r _
  | restartSame =>
    rw [transitionOp, perform_bind_pure, restartSame, perform_bind, hvalue]
    cases w.value r with
    | error fault => exact .looked w r _ _
    | ok start => exact .modify w _ _ r _
  | flip => exact ⟨rfl, fun _ => Store.get_set _ _ _ _, rfl⟩
  | shown | start | finish =>
    refine ⟨rfl, fun p => ?_, rfl⟩
    split
    · next h => rw [← h]; rfl
    · rfl

/-- Two transitions, perhaps of two worlds, with the same ends on durations that are alike. -/
structure Alongside (w : World κ) (r : Ref Transition) (w' : World κ) (r' : Ref Transition) :
    Prop where
  start : (w'.transitions.get r').start = (w.transitions.get r).start
  finish : (w'.transitions.get r').finish = (w.transitions.get r).finish
  akin : w.Akin (w.transitions.get r).duration w' (w'.transitions.get r').duration

namespace Alongside

variable {r r' : Ref Transition} (h : w.Alongside r w' r')
include h

theorem value : w'.value r' = w.value r := by
  have hat : ∀ x, (w'.transitions.get r').at x = (w.transitions.get r).at x := fun x => by
    rw [Transition.at, h.start, h.finish, ← Transition.at]
  rw [World.value, World.value]
  simp only [h.akin.progress, hat]

theorem view : w'.viewTransition r' = w.viewTransition r := by
  rw [viewTransition, h.start, h.finish, h.value, viewTransition]

theorem outcome (op : TransitionOp) :
    (w'.step (.onTransition r' op)).1 = (w.step (.onTransition r op)).1 := by
  have hvalue := h.value
  change ((transitionOp r' op).perform w').1 = ((transitionOp r op).perform w).1
  cases op with
  | value => simp only [transitionOp, perform_bind_pure, perform_value, hvalue]
  | setEnds | flip => rfl
  | retarget finish =>
    simp only [transitionOp, retarget, perform_bind, perform_value, hvalue]
    cases w.value r <;> rfl
  | restartSame =>
    simp only [transitionOp, restartSame, perform_bind, perform_value, hvalue]
    cases w.value r <;> rfl
  | shown =>
    have hshown : (w'.transitions.get r').shown = (w.transitions.get r).shown := by
      unfold Transition.shown
      rw [h.start, h.finish]
    change Except.ok (Reply.text (w'.transitions.get r').shown) =
      Except.ok (Reply.text (w.transitions.get r).shown)
    rw [hshown]
  | start => exact congrArg (fun x => Except.ok (Reply.number x)) h.start
  | finish => exact congrArg (fun x => Except.ok (Reply.number x)) h.finish

end Alongside

theorem step_newTransition (w : World κ) (d : Ref Duration) (start finish : Float) :
    w.step (.newTransition d start finish) = (.ok (.made (.transition ⟨w.transitions.next⟩)),
      { w with transitions := (w.transitions.add ⟨d, start, finish⟩).2 }) := rfl

theorem step_isShared (w : World κ) {op : Op} (h : op.isShared = true) :
    (w.step op).2.durations = w.durations ∧ (w.step op).2.transitions = w.transitions := by
  have hclock : op.isClock = true → _ := fun h => (w.step_isClock h)
  have hsetting : op.isSetting = true → _ := fun h => (w.step_isSetting h).frame
  cases op with
  | setMonotonic | onClock => exact ⟨by rw [hclock rfl], by rw [hclock rfl]⟩
  | onLength | onDescription => exact ⟨by rw [hsetting rfl], by rw [hsetting rfl]⟩
  | newDescriptionOfText name text =>
    rw [step, operate, perform_bind, perform_query]
    cases Setting.ofText name text <;> exact ⟨rfl, rfl⟩
  | newClock | newLength | newDescription => exact ⟨rfl, rfl⟩
  | _ => simp [Op.isShared, Op.isClock, Op.isSetting] at h

theorem after_isShared (w : World κ) {ops : List Op} (h : ∀ op ∈ ops, op.isShared = true) :
    (w.after ops).durations = w.durations ∧ (w.after ops).transitions = w.transitions := by
  induction ops generalizing w with
  | nil => exact ⟨rfl, rfl⟩
  | cons op rest ih =>
    rw [List.forall_mem_cons] at h
    obtain ⟨hdurations, htransitions⟩ := w.step_isShared h.1
    obtain ⟨hdurations', htransitions'⟩ := ih (w.step op).2 h.2
    exact ⟨hdurations'.trans hdurations, htransitions'.trans htransitions⟩

/-- The pairs are pairs of matched durations, and of transitions on them. -/
structure Coupled (r : Ref (Setting Int)) (q : Ref (Setting Description)) (e : Easing)
    (w : World κ) (ps : Pairs) : Prop where
  durations : Paired (Matched r q e) w.durations ps.durations
  transitions : Paired (Parallel ps.durations) w.transitions ps.transitions

namespace Coupled

variable {ps : Pairs}

theorem akin (h : Coupled r q e w ps) (hagree : w.Agree r q e) {p : Ref Duration × Ref Duration}
    (hp : p ∈ ps.durations) : w.Akin p.1 w p.2 :=
  hagree.akin (h.durations.related p hp)

theorem alongside (h : Coupled r q e w ps) (hagree : w.Agree r q e)
    {p : Ref Transition × Ref Transition} (hp : p ∈ ps.transitions) : w.Alongside p.1 w p.2 := by
  obtain ⟨d, hd, hfirst, hsecond⟩ := h.transitions.related p hp
  refine ⟨by rw [hsecond], by rw [hsecond], ?_⟩
  rw [hsecond, hfirst]
  exact h.akin hagree hd

theorem onDurations (h : Coupled r q e w ps) (hagree : w.Agree r q e)
    {p : Ref Duration × Ref Duration} (hp : p ∈ ps.durations) (op : DurationOp) :
    SameOutcome (w.both (.onDuration p.1 op) (.onDuration p.2 op)).1 ∧
      Coupled r q e (w.both (.onDuration p.1 op) (.onDuration p.2 op)).2 ps := by
  unfold both
  have hakin := h.akin hagree hp
  have hmatched := h.durations.related p hp
  have hfirst := w.step_onDuration p.1 op
  have hknown : ∀ d : Ref Duration, d.index < w.durations.next →
      d.index < (w.step (.onDuration p.1 op)).2.durations.next :=
    fun d hd => (w.holding_step hd _).known
  have houtcome := hakin.outcome op
  generalize w.step (.onDuration p.1 op) = first at *
  obtain ⟨outcome, v⟩ := first
  dsimp only at *
  have hsecond := v.step_onDuration p.2 op
  -- The second one is a twin of what it was, for the first is another duration.
  have htwin : w.Twin p.2 v p.2 := hfirst.twin (h.durations.sides p hp p hp)
  rw [htwin.timer, htwin.nowOf, htwin.length, hakin.timer, hakin.nowOf, hakin.length] at hsecond
  have hretimed := hmatched.retimed ((w.timer p.1).respond (w.nowOf p.1) (w.length p.1) op)
  refine ⟨?_, h.durations.replaced hp hretimed
    (fun d hd => (v.holding_step (hknown d hd) _).known) fun d => ?_, ?_⟩
  · rw [htwin.outcome, houtcome]
    exact .refl _
  · rw [hsecond.get, htwin.duration, hfirst.get]
  · rw [hsecond.frame, hfirst.frame]
    exact h.transitions

theorem onTransitions (h : Coupled r q e w ps) (hagree : w.Agree r q e)
    {p : Ref Transition × Ref Transition} (hp : p ∈ ps.transitions) (op : TransitionOp) :
    SameOutcome (w.both (.onTransition p.1 op) (.onTransition p.2 op)).1 ∧
      Coupled r q e (w.both (.onTransition p.1 op) (.onTransition p.2 op)).2 ps := by
  unfold both
  have hbeside := h.alongside hagree hp
  have hparallel := (h.transitions.related p hp).respond (w.value p.1) op
  have hfirst := w.step_onTransition p.1 op
  have houtcome := hbeside.outcome op
  generalize w.step (.onTransition p.1 op) = first at *
  obtain ⟨outcome, v⟩ := first
  dsimp only at *
  have hsecond := v.step_onTransition p.2 op
  -- The first one has changed neither the second nor the duration of that one.
  have hsame : v.transitions.get p.2 = w.transitions.get p.2 := by
    rw [hfirst.transitions, if_neg (h.transitions.sides p hp p hp)]
  have hown : w.Alongside p.2 v p.2 := by
    refine ⟨by rw [hsame], by rw [hsame], ?_⟩
    rw [hsame]
    exact (hfirst.twin _).akin
  rw [hsame, hown.value, hbeside.value] at hsecond
  refine ⟨?_, ?_, h.transitions.replaced hp hparallel (fun d hd => ?_) fun d => ?_⟩
  · rw [hown.outcome, houtcome]
    exact .refl _
  · rw [hsecond.frame, hfirst.frame]
    exact h.durations
  · rw [hsecond.next, hfirst.next]
    exact hd
  · rw [hsecond.transitions, hfirst.transitions]

theorem clones (h : Coupled r q e w ps) {p : Ref Duration × Ref Duration}
    (hp : p ∈ ps.durations) :
    SameOutcome (w.both (.clone p.1) (.clone p.2)).1 ∧
      Coupled r q e (w.both (.clone p.1) (.clone p.2)).2
        (ps.add (w.both (.clone p.1) (.clone p.2)).1) := by
  have hadded := h.durations.added (h.durations.related p hp)
  have hsecond : (w.durations.add (w.durations.get p.1)).2.get p.2 = w.durations.get p.2 :=
    Store.get_add_of_lt _ _ (h.durations.known p hp).2
  rw [both, step_clone, step_clone]
  dsimp only
  rw [hsecond]
  refine ⟨.durations _ _, hadded, h.transitions.mono fun t t' hparallel => ?_⟩
  obtain ⟨d, hd, heq⟩ := hparallel
  exact ⟨d, List.mem_append_left _ hd, heq⟩

theorem newTransitions (h : Coupled r q e w ps) {p : Ref Duration × Ref Duration}
    (hp : p ∈ ps.durations) (start finish : Float) :
    SameOutcome (w.both (.newTransition p.1 start finish) (.newTransition p.2 start finish)).1 ∧
      Coupled r q e (w.both (.newTransition p.1 start finish) (.newTransition p.2 start finish)).2
        (ps.add (w.both (.newTransition p.1 start finish) (.newTransition p.2 start finish)).1) := by
  rw [both, step_newTransition, step_newTransition]
  exact ⟨.transitions _ _, h.durations, h.transitions.added ⟨p, hp, rfl, rfl⟩⟩

theorem shared (h : Coupled r q e w ps) {ops : List Op} (hops : ∀ op ∈ ops, op.isShared = true) :
    Coupled r q e (w.after ops) ps := by
  obtain ⟨hdurations, htransitions⟩ := w.after_isShared hops
  exact ⟨hdurations ▸ h.durations, htransitions ▸ h.transitions⟩

/-- What is done to both sides of a pair has the same outcomes, and leaves pairs. -/
theorem jointly (h : Coupled r q e w ps) (hagree : w.Agree r q e) {j : Joint}
    (hj : ∀ ops, j = .shared ops → ∀ op ∈ ops, op.isShared = true) :
    (∀ o ∈ (w.jointly ps j).1, SameOutcome o) ∧
      Coupled r q e (w.jointly ps j).2.1 (w.jointly ps j).2.2 := by
  have hnone : (∀ o ∈ ([] : List Outcomes), SameOutcome o) ∧ Coupled r q e w ps :=
    ⟨fun _ ho => absurd ho List.not_mem_nil, h⟩
  cases j with
  | onDurations i op =>
    cases hp : ps.durations[i]? with
    | none => simpa only [World.jointly, hp, Option.map_none, both?_none] using hnone
    | some p =>
      simp only [World.jointly, hp, Option.map_some, both?_some,
        List.forall_mem_singleton]
      exact h.onDurations hagree (List.mem_of_getElem? hp) op
  | clone i =>
    cases hp : ps.durations[i]? with
    | none => simpa only [World.jointly, hp, Option.map_none, both?_none, List.foldl_nil] using hnone
    | some p =>
      simp only [World.jointly, hp, Option.map_some, both?_some, List.foldl_cons, List.foldl_nil,
        List.forall_mem_singleton]
      exact h.clones (List.mem_of_getElem? hp)
  | newTransitions i start finish =>
    cases hp : ps.durations[i]? with
    | none => simpa only [World.jointly, hp, Option.map_none, both?_none, List.foldl_nil] using hnone
    | some p =>
      simp only [World.jointly, hp, Option.map_some, both?_some, List.foldl_cons, List.foldl_nil,
        List.forall_mem_singleton]
      exact h.newTransitions (List.mem_of_getElem? hp) start finish
  | onTransitions i op =>
    cases hp : ps.transitions[i]? with
    | none => simpa only [World.jointly, hp, Option.map_none, both?_none] using hnone
    | some p =>
      simp only [World.jointly, hp, Option.map_some, both?_some,
        List.forall_mem_singleton]
      exact h.onTransitions hagree (List.mem_of_getElem? hp) op
  | shared ops => exact ⟨hnone.1, h.shared (hj ops rfl)⟩

theorem runJointly (h : Coupled r q e w ps) {js : List Joint}
    (hshared : ∀ ops, .shared ops ∈ js → ∀ op ∈ ops, op.isShared = true)
    (hagree : ∀ front, front <+: js → (w.runJointly ps front).2.1.Agree r q e) :
    (∀ o ∈ (w.runJointly ps js).1, SameOutcome o) ∧
      Coupled r q e (w.runJointly ps js).2.1 (w.runJointly ps js).2.2 := by
  induction js generalizing w ps with
  | nil => exact ⟨fun _ ho => absurd ho List.not_mem_nil, h⟩
  | cons j rest ih =>
    obtain ⟨hfirst, hcoupled⟩ := h.jointly (hagree [] List.nil_prefix) (j := j) fun ops hops =>
      hshared ops (hops ▸ List.mem_cons_self)
    obtain ⟨hlater, hfinal⟩ := ih hcoupled (fun ops hops => hshared ops (List.mem_cons_of_mem _ hops))
      fun front hfront => hagree (j :: front) (List.prefix_cons_inj j |>.mpr hfront)
    exact ⟨fun o ho => (List.mem_append.mp ho).elim (hfirst o) (hlater o), hfinal⟩

theorem of_coupled (w : World κ) (r : Ref (Setting Int)) (q : Ref (Setting Description))
    (e : Easing) (c : Clock) : Coupled r q e (w.coupled r q e c).1 (w.coupled r q e c).2 where
  durations := Paired.nil.added (s := w.durations) (x := ⟨.length r, e, c, {}⟩)
    (y := ⟨.description q, .named .circle, c, {}⟩) ⟨rfl, rfl, rfl, rfl, rfl⟩
  transitions := .nil

end Coupled

/-- A duration with a length and an easing of its own and one that takes both from a description
answer alike, as do their copies and transitions, while the two settings agree. -/
theorem sources_interchangeable (w : World κ) (r : Ref (Setting Int))
    (q : Ref (Setting Description)) (e : Easing) (c : Clock) {js : List Joint}
    (hshared : ∀ ops, .shared ops ∈ js → ∀ op ∈ ops, op.isShared = true)
    (hagree : ∀ front, front <+: js →
      ((w.coupled r q e c).1.runJointly (w.coupled r q e c).2 front).2.1.Agree r q e) :
    let made := w.coupled r q e c
    let result := made.1.runJointly made.2 js
    (∃ p, made.2.durations = [p] ∧ p ∈ result.2.2.durations ∧ p.1 ≠ p.2 ∧
      made.1.durations.get p.1 = ⟨.length r, e, c, {}⟩ ∧
      made.1.durations.get p.2 = ⟨.description q, .named .circle, c, {}⟩) ∧
    (∀ o ∈ result.1, SameOutcome o) ∧
    (∀ p ∈ result.2.2.durations,
      result.2.1.viewDuration p.2 = result.2.1.viewDuration p.1 ∧
        ∀ op, (result.2.1.step (.onDuration p.2 op)).1 = (result.2.1.step (.onDuration p.1 op)).1) ∧
    ∀ p ∈ result.2.2.transitions,
      result.2.1.viewTransition p.2 = result.2.1.viewTransition p.1 ∧
        ∀ op, (result.2.1.step (.onTransition p.2 op)).1 =
          (result.2.1.step (.onTransition p.1 op)).1 := by
  intro made result
  have hmade : Coupled r q e made.1 made.2 := .of_coupled w r q e c
  obtain ⟨hsame, hcoupled⟩ := hmade.runJointly hshared hagree
  have hfinal : result.2.1.Agree r q e := hagree js List.prefix_rfl
  refine ⟨⟨(⟨w.durations.next⟩, ⟨w.durations.next + 1⟩), rfl, ?_, by simp, ?_, ?_⟩, hsame,
    fun p hp => ?_, fun p hp => ?_⟩
  · exact (durations_runJointly made.1 made.2 js).subset List.mem_cons_self
  · exact (Store.get_add_of_lt _ _ (Nat.lt_succ_self _)).trans (Store.get_add_self w.durations _)
  · exact Store.get_add_self (w.durations.add _).2 _
  · exact ⟨(hcoupled.akin hfinal hp).view, (hcoupled.akin hfinal hp).outcome⟩
  · exact ⟨(hcoupled.alongside hfinal hp).view, (hcoupled.alongside hfinal hp).outcome⟩

/-- A length of 300 ms and a linear description as long, with a clock that reads zero. -/
def twoSources : World Unit :=
  World.empty.after [.newClock 0, .newLength (.whole "length" 300),
    .newDescription (.ofDescription "description" ⟨300, "linear", .named .linear⟩)]

def setBoth (length : Int) : Joint :=
  .shared [.onLength ⟨0⟩ (.set length), .onDescription ⟨0⟩ (.set ⟨length, "linear", .named .linear⟩)]

/-- Two durations are started and turned around, with a copy of each and a transition on each, while
their length changes, also to one below zero. -/
def jointRun : List Joint :=
  [.newTransitions 0 0.0 8.0, .onDurations 0 .start, .shared [.onClock ⟨0⟩ (.advance 100)], .clone 0,
    setBoth 200, .onTransitions 0 (.retarget 16.0), .onDurations 0 .reverse, setBoth (-5),
    .onDurations 0 .poll, .shared [.onClock ⟨0⟩ (.reset 40)], .onDurations 1 .shown]

theorem sources_interchangeable_jointRun :
    let made := twoSources.coupled ⟨0⟩ ⟨0⟩ (.named .linear) (.manual ⟨0⟩)
    let result := made.1.runJointly made.2 jointRun
    (∀ ops, .shared ops ∈ jointRun → ∀ op ∈ ops, op.isShared = true) ∧
      (∀ front, front <+: jointRun →
        (made.1.runJointly made.2 front).2.1.Agree ⟨0⟩ ⟨0⟩ (.named .linear)) ∧
      result.2.2.durations.length = 2 ∧ result.2.2.transitions.length = 1 ∧
      (∀ o ∈ result.1, SameOutcome o) ∧
      (∀ p ∈ result.2.2.durations,
        result.2.1.viewDuration p.2 = result.2.1.viewDuration p.1) ∧
      ∀ p ∈ result.2.2.transitions,
        result.2.1.viewTransition p.2 = result.2.1.viewTransition p.1 := by
  intro made result
  have hshared : ∀ ops, .shared ops ∈ jointRun → ∀ op ∈ ops, op.isShared = true := by
    intro ops hops
    simp only [jointRun, setBoth, List.mem_cons, List.not_mem_nil, reduceCtorEq, false_or, or_false,
      Joint.shared.injEq] at hops
    rcases hops with rfl | rfl | rfl | rfl <;> decide
  have hagree : ∀ front, front <+: jointRun →
      (made.1.runJointly made.2 front).2.1.Agree ⟨0⟩ ⟨0⟩ (.named .linear) := by
    have hinits : ∀ front ∈ jointRun.inits,
        (made.1.runJointly made.2 front).2.1.Agree ⟨0⟩ ⟨0⟩ (.named .linear) := by
      decide +kernel
    exact fun front hfront => hinits front ((List.mem_inits _ _).mpr hfront)
  obtain ⟨-, hsame, hdurations, htransitions⟩ :=
    sources_interchangeable twoSources ⟨0⟩ ⟨0⟩ (.named .linear) (.manual ⟨0⟩) hshared hagree
  exact ⟨hshared, hagree, by decide +kernel, by decide +kernel, hsame, fun p hp => (hdurations p hp).1,
    fun p hp => (htransitions p hp).1⟩

end World

end Tween
