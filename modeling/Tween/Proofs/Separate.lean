import Tween.Proofs.Twins

namespace Tween

variable {κ α β : Type}

namespace Call

/-- The duration that an operation works on, itself or through what is built on it. -/
def subject (c : Call κ) : Option (Ref Duration) :=
  match c.op with
  | .onDuration d _ => some d
  | .onTransition r _ => some (c.before.transitions.get r).duration
  | .animate a _ => some a.duration
  | _ => none

/-- Whether a call works on a duration or on what is built on it, or makes something of it. -/
def concerns (c : Call κ) (d : Ref Duration) : Bool :=
  match c.op with
  | .clone q | .newTransition q _ _ => q = d
  | _ => c.subject = some d

/-- Whether a call starts a duration, turns it or asks for its completion, or works on a transition
or an animation that is built on it. -/
def drives (c : Call κ) (d : Ref Duration) : Bool :=
  match c.op with
  | .onDuration q op => q = d && op.moves
  | _ => c.subject = some d

/-- Whether a call works on no system, and on no animation but one whose transition is built on its
duration. -/
def isPlain (c : Call κ) : Bool :=
  match c.op with
  | .onSystem .. => false
  | .animate a _ => (c.before.transitions.get a.transition).duration = a.duration
  | _ => true

theorem concerns_of_ne {c : Call κ} {q d : Ref Duration} (h : c.subject = some q) (hq : q ≠ d) :
    c.concerns d = false := by
  have hne : c.subject ≠ some d := fun heq => hq (Option.some.inj (h.symm.trans heq))
  obtain ⟨w, op⟩ := c
  cases op with
  | onDuration | onTransition | animate => exact decide_eq_false hne
  | _ => cases h

theorem subject_of_drives {c : Call κ} {d : Ref Duration} (h : c.drives d = true) :
    c.subject = some d := by
  obtain ⟨w, op⟩ := c
  cases op with
  | onDuration q op =>
    rw [drives, Bool.and_eq_true] at h
    exact congrArg some (of_decide_eq_true h.1)
  | _ => exact of_decide_eq_true h

end Call

def Op.isShared : Op → Bool
  | .newClock _ | .newLength _ | .newDescription _ | .newDescriptionOfText .. => true
  | op => op.isClock || op.isSetting

namespace World

/-- The worlds agree on a duration, on what is built on it, and on what durations share. -/
structure Alike (d : Ref Duration) (w w' : World κ) : Prop where
  twin : w.Twin d w' d
  known : d.index < w.durations.next
  durations : w'.durations.next = w.durations.next
  transitions : w'.transitions.next = w.transitions.next
  built : ∀ r, (w'.transitions.get r).duration = (w.transitions.get r).duration
  own : ∀ r, (w.transitions.get r).duration = d → w'.transitions.get r = w.transitions.get r

namespace Alike

variable {d q : Ref Duration} {w w' v v' : World κ}

theorem refl (hd : d.index < w.durations.next) : Alike d w w :=
  ⟨⟨rfl, rfl, rfl, rfl, rfl⟩, hd, rfl, rfl, fun _ => rfl, fun _ _ => rfl⟩

theorem symm (h : Alike d w w') : Alike d w' w where
  twin := ⟨h.twin.monotonic.symm, h.twin.clocks.symm, h.twin.lengths.symm,
    h.twin.descriptions.symm, h.twin.duration.symm⟩
  known := h.durations ▸ h.known
  durations := h.durations.symm
  transitions := h.transitions.symm
  built r := (h.built r).symm
  own r hr := (h.own r ((h.built r).symm.trans hr)).symm

theorem trans (h : Alike d w v) (h' : Alike d v w') : Alike d w w' where
  twin := ⟨h'.twin.monotonic.trans h.twin.monotonic, h'.twin.clocks.trans h.twin.clocks,
    h'.twin.lengths.trans h.twin.lengths, h'.twin.descriptions.trans h.twin.descriptions,
    h'.twin.duration.trans h.twin.duration⟩
  known := h.known
  durations := h'.durations.trans h.durations
  transitions := h'.transitions.trans h.transitions
  built r := (h'.built r).trans (h.built r)
  own r hr := (h'.own r ((h.built r).trans hr)).trans (h.own r hr)

theorem congr (h : Alike d w w') (hv : Alike d w v) (hv' : Alike d w' v') : Alike d v v' :=
  hv.symm.trans (h.trans hv')

theorem noticed (h : Alike d w w') (count : Nat) : Alike d w (w'.noticed count) :=
  ⟨⟨h.twin.monotonic, h.twin.clocks, h.twin.lengths, h.twin.descriptions, h.twin.duration⟩,
    h.known, h.durations, h.transitions, h.built, h.own⟩

theorem withTimer (h : Alike d w w') (hq : q ≠ d) (f : Timer → Timer) :
    Alike d w (w'.withTimer q f) := by
  refine ⟨⟨h.twin.monotonic, h.twin.clocks, h.twin.lengths, h.twin.descriptions, ?_⟩,
    h.known, h.durations, h.transitions, h.built, h.own⟩
  rw [get_withTimer, if_neg hq]
  exact h.twin.duration

theorem get_modify (w : World κ) (r q : Ref Transition) (f : Transition → Transition) :
    (w.transitions.modify r f).get q =
      if r = q then f (w.transitions.get r) else w.transitions.get q :=
  Store.get_set _ _ _ _

theorem modify (h : Alike d w w') {r : Ref Transition} (hr : (w.transitions.get r).duration ≠ d)
    {f : Transition → Transition} (hf : ∀ t, (f t).duration = t.duration) :
    Alike d w { w' with transitions := w'.transitions.modify r f } := by
  refine ⟨⟨h.twin.monotonic, h.twin.clocks, h.twin.lengths, h.twin.descriptions,
    h.twin.duration⟩, h.known, h.durations, h.transitions, fun q => ?_, fun q hq => ?_⟩
  · rw [get_modify]
    split
    · next heq => rw [hf, h.built, heq]
    · exact h.built q
  · have hne : r ≠ q := fun heq => hr (by rw [heq, hq])
    rw [get_modify, if_neg hne]
    exact h.own q hq

theorem withTimer_both (h : Alike d w w') (f : Timer → Timer) :
    Alike d (w.withTimer d f) (w'.withTimer d f) := by
  refine ⟨⟨h.twin.monotonic, h.twin.clocks, h.twin.lengths, h.twin.descriptions, ?_⟩,
    h.known, h.durations, h.transitions, h.built, h.own⟩
  rw [get_withTimer, get_withTimer, if_pos rfl, if_pos rfl, h.twin.duration, h.twin.timer]

theorem modify_both (h : Alike d w w') (r : Ref Transition) {f : Transition → Transition}
    (hf : ∀ t, (f t).duration = t.duration) :
    Alike d { w with transitions := w.transitions.modify r f }
      { w' with transitions := w'.transitions.modify r f } := by
  refine ⟨⟨h.twin.monotonic, h.twin.clocks, h.twin.lengths, h.twin.descriptions,
    h.twin.duration⟩, h.known, h.durations, h.transitions, fun q => ?_, fun q hq => ?_⟩
  · rw [get_modify, get_modify]
    split
    · rw [hf, hf, h.built]
    · exact h.built q
  · rw [get_modify] at hq ⊢
    rw [get_modify]
    split at hq
    · next heq => rw [if_pos heq, if_pos heq, h.own r ((hf _).symm.trans hq)]
    · next hne =>
      rw [if_neg hne, if_neg hne]
      exact h.own q hq

theorem reshared (h : Alike d w w') (monotonic : Int) (clocks : Store ManualClock)
    (lengths : Store (Setting Int)) (descriptions : Store (Setting Description))
    (journal journal' : List Event) :
    Alike d { w with monotonic, clocks, lengths, descriptions, journal }
      { w' with monotonic, clocks, lengths, descriptions, journal := journal' } :=
  ⟨⟨rfl, rfl, rfl, rfl, h.twin.duration⟩, h.known, h.durations, h.transitions, h.built, h.own⟩

theorem frame (h : Alike d w w') : w' = { w with
    durations := w'.durations, transitions := w'.transitions, targets := w'.targets
    bindings := w'.bindings, systems := w'.systems, journal := w'.journal
    client := w'.client } := by
  rw [← h.twin.monotonic, ← h.twin.clocks, ← h.twin.lengths, ← h.twin.descriptions]

theorem addDuration (h : Alike d w w') (x x' : Duration) :
    Alike d { w with durations := (w.durations.add x).2 }
      { w' with durations := (w'.durations.add x').2 } := by
  refine ⟨⟨h.twin.monotonic, h.twin.clocks, h.twin.lengths, h.twin.descriptions, ?_⟩,
    Nat.lt_succ_of_lt h.known, congrArg (· + 1) h.durations, h.transitions, h.built, h.own⟩
  have hknown : d.index < w'.durations.next := h.durations ▸ h.known
  exact (Store.get_add_of_lt _ _ hknown).trans
    (h.twin.duration.trans (Store.get_add_of_lt _ _ h.known).symm)

theorem addTransition (h : Alike d w w') (x : Transition) :
    Alike d { w with transitions := (w.transitions.add x).2 }
      { w' with transitions := (w'.transitions.add x).2 } := by
  have hget : ∀ q, (w'.transitions.add x).2.get q =
      if q = ⟨w.transitions.next⟩ then x else w'.transitions.get q := by
    intro q
    rw [← h.transitions]
    exact Store.get_add _ _ q
  refine ⟨⟨h.twin.monotonic, h.twin.clocks, h.twin.lengths, h.twin.descriptions,
    h.twin.duration⟩, h.known, h.durations, congrArg (· + 1) h.transitions,
    fun q => ?_, fun q hq => ?_⟩
  · rw [hget, Store.get_add]
    split
    · rfl
    · exact h.built q
  · rw [hget]
    rw [Store.get_add] at hq ⊢
    split
    · rfl
    · next hne =>
      rw [if_neg hne] at hq
      exact h.own q hq

end Alike

end World

namespace Act

open World

/-- Whether what is done in alike worlds has the same outcome and leaves them alike. -/
structure Agrees (d : Ref Duration) (act act' : Act κ α) (w w' : World κ) : Prop where
  outcome : (act'.perform w').1 = (act.perform w).1
  alike : Alike d (act.perform w).2 (act'.perform w').2

namespace Agrees

variable {d : Ref Duration} {w w' : World κ}

theorem pure (h : Alike d w w') (a : α) : Agrees d (pure a) (pure a) w w' :=
  ⟨rfl, h⟩

theorem bind {act act' : Act κ α} {f f' : α → Act κ β} (h : Agrees d act act' w w')
    (hf : ∀ a v v', Alike d v v' → Agrees d (f a) (f' a) v v') :
    Agrees d (act >>= f) (act' >>= f') w w' := by
  obtain ⟨houtcome, halike⟩ := h
  rcases hrun : act.perform w with ⟨r, v⟩
  rcases hrun' : act'.perform w' with ⟨r', v'⟩
  rw [hrun, hrun'] at houtcome halike
  obtain rfl : r' = r := houtcome
  cases r' with
  | error fault => exact ⟨by rw [perform_bind, perform_bind, hrun, hrun'],
      by rwa [perform_bind, perform_bind, hrun, hrun']⟩
  | ok a =>
    obtain ⟨houtcome, halike⟩ := hf a v v' halike
    exact ⟨by rwa [perform_bind_ok f hrun, perform_bind_ok f' hrun'],
      by rwa [perform_bind_ok f hrun, perform_bind_ok f' hrun']⟩

theorem reply {act act' : Act κ α} (h : Agrees d act act' w w') (f : α → β) :
    Agrees d (act >>= fun a => Pure.pure (f a)) (act' >>= fun a => Pure.pure (f a)) w w' :=
  h.bind fun a _ _ hv => .pure hv (f a)

theorem query (h : Alike d w w') {f f' : World κ → Except Fault α} (hf : f' w' = f w) :
    Agrees d (query f) (query f') w w' := by
  refine ⟨?_, ?_⟩
  · rw [perform_query, perform_query, hf]
  · rw [perform_query, perform_query]
    exact h

theorem get_bind {f f' : World κ → Act κ α} (h : Agrees d (f w) (f' w') w w') :
    Agrees d ((get : Act κ (World κ)) >>= f) ((get : Act κ (World κ)) >>= f') w w' :=
  ⟨h.outcome, h.alike⟩

theorem of_looks {act act' : Act κ α} (h : Alike d w w') (hact : Looks act) (hact' : Looks act')
    (houtcome : (act'.perform w').1 = (act.perform w).1) : Agrees d act act' w w' := by
  obtain ⟨count, hw⟩ := hact w
  obtain ⟨count', hw'⟩ := hact' w'
  refine ⟨houtcome, ?_⟩
  rw [hw, hw']
  exact h.congr ((Alike.refl h.known).noticed count) ((Alike.refl h.symm.known).noticed count')

variable (h : Alike d w w')
include h

theorem start : Agrees d (start d) (start d) w w' := by
  refine ⟨rfl, ?_⟩
  rw [perform_start, perform_start, h.twin.nowOf]
  exact h.withTimer_both (·.start (w.nowOf d))

theorem durationOp (op : DurationOp) : Agrees d (durationOp d op) (durationOp d op) w w' := by
  have hkeeps : ∀ v : World κ, ((Act.durationOp d op).perform v).2.durations.next = v.durations.next ∧
      ((Act.durationOp d op).perform v).2.transitions = v.transitions := fun v =>
    Keeps.durationOp (P := fun u => u.durations.next = v.durations.next ∧
      u.transitions = v.transitions) (fun _ _ _ hu => hu) (fun _ _ hu => hu) v ⟨rfl, rfl⟩
  obtain ⟨hnext, htransitions⟩ := hkeeps w
  obtain ⟨hnext', htransitions'⟩ := hkeeps w'
  refine ⟨h.twin.outcome op, h.twin.step op, ?_, ?_, ?_, ?_, ?_⟩
  · rw [hnext]
    exact h.known
  · rw [hnext, hnext', h.durations]
  · rw [htransitions, htransitions', h.transitions]
  · rw [htransitions, htransitions']
    exact h.built
  · rw [htransitions, htransitions']
    exact h.own

theorem advance (r : Ref ManualClock) (ms : Int) :
    Agrees d (advance r ms) (advance r ms) w w' := by
  rw [h.frame]
  refine ⟨?_, ?_⟩
  · rw [perform_advance, perform_advance]
    split <;> rfl
  · rw [perform_advance, perform_advance]
    split <;> exact h.reshared _ _ _ _ _ _

theorem setLengthText (r : Ref (Setting Int)) (text : String) :
    Agrees d (setLengthText r text) (setLengthText r text) w w' := by
  rw [h.frame]
  refine ⟨?_, ?_⟩
  · rw [perform_setLengthText, perform_setLengthText]
    rcases Text.Whole.read? text with _ | _ | n <;> rfl
  · rw [perform_setLengthText, perform_setLengthText]
    rcases Text.Whole.read? text with _ | _ | n <;> exact h.reshared _ _ _ _ _ _

theorem setDescriptionText (r : Ref (Setting Description)) (text : String) :
    Agrees d (setDescriptionText r text) (setDescriptionText r text) w w' := by
  rw [h.frame]
  refine ⟨?_, ?_⟩
  · rw [perform_setDescriptionText, perform_setDescriptionText]
    rcases Description.read? text with _ | _ | a <;> rfl
  · rw [perform_setDescriptionText, perform_setDescriptionText]
    rcases Description.read? text with _ | _ | a <;> exact h.reshared _ _ _ _ _ _

variable {r : Ref Transition}

theorem changeTransition {f : Transition → Transition} (hf : ∀ t, (f t).duration = t.duration) :
    Agrees d (changeTransition r f) (changeTransition r f) w w' :=
  ⟨rfl, h.modify_both r hf⟩

theorem setEnds (start finish : Float) :
    Agrees d (setEnds r start finish) (setEnds r start finish) w w' :=
  changeTransition h fun _ => rfl

section

variable (hr : (w.transitions.get r).duration = d)
include hr

theorem value : Agrees d (value r) (value r) w w' := by
  refine .of_looks h (.value r) (.value r) ?_
  rw [perform_value, perform_value, World.value, World.value, h.own r hr, hr, h.twin.progress]

theorem retarget (finish : Float) : Agrees d (retarget r finish) (retarget r finish) w w' :=
  (value h hr).bind fun start _ _ hv => setEnds hv start finish

theorem restartSame : Agrees d (restartSame r) (restartSame r) w w' :=
  (value h hr).bind fun _ _ _ hv => changeTransition hv fun _ => rfl

theorem transitionOp (op : TransitionOp) :
    Agrees d (transitionOp r op) (transitionOp r op) w w' := by
  cases op with
  | value => exact (value h hr).reply _
  | setEnds start finish => exact (setEnds h start finish).reply _
  | retarget finish => exact (retarget h hr finish).reply _
  | restartSame => exact (restartSame h hr).reply _
  | flip => 
    exact (changeTransition h (f := fun t => { t with start := t.finish, finish := t.start })
      fun _ => rfl).reply _
  | shown | start | finish =>
    refine .get_bind ?_
    rw [h.own r hr]
    exact .pure h _

end

theorem animate {a : Animation} (hduration : a.duration = d)
    (htransition : (w.transitions.get a.transition).duration = d) (values : List Float) :
    Agrees d (animate a values) (animate a values) w w' := by
  subst hduration
  have hstart : ∀ v v' : World κ, Alike a.duration v v' →
      Agrees a.duration (Act.start a.duration) (Act.start a.duration) v v' := fun _ _ hv => start hv
  match values with
  | [] => exact (restartSame h htransition).bind fun _ => hstart
  | [finish] => exact (retarget h htransition finish).bind fun _ => hstart
  | [first, finish] => exact (setEnds h first finish).bind fun _ => hstart
  | _ :: _ :: _ :: _ => exact ⟨rfl, h⟩

theorem addDuration (x x' : Duration) : Agrees d (addDuration x) (addDuration x') w w' := by
  refine ⟨?_, h.addDuration x x'⟩
  change Except.ok (⟨w'.durations.next⟩ : Ref Duration) = _
  rw [h.durations]
  rfl

theorem newDescription (s : Setting Description) :
    Agrees d (newDescription s) (newDescription s) w w' :=
  ⟨congrArg (fun store : Store (Setting Description) => Except.ok (store.add s).1)
      h.twin.descriptions,
    ⟨h.twin.monotonic, h.twin.clocks, h.twin.lengths,
      congrArg (fun store => (store.add s).2) h.twin.descriptions, h.twin.duration⟩,
    h.known, h.durations, h.transitions, h.built, h.own⟩

theorem newDuration (spec : DurationSpec) :
    Agrees d (newDuration spec) (newDuration spec) w w' :=
  (query h rfl).bind fun x _ _ hv => addDuration hv x x

theorem newTransition (q : Ref Duration) (start finish : Float) :
    Agrees d (newTransition q start finish) (newTransition q start finish) w w' := by
  refine ⟨?_, h.addTransition ⟨q, start, finish⟩⟩
  change Except.ok (⟨w'.transitions.next⟩ : Ref Transition) = _
  rw [h.transitions]
  rfl

theorem newAnimation (spec : DurationSpec) :
    Agrees d (newAnimation spec) (newAnimation spec) w w' :=
  (newDuration h spec).bind fun _ _ _ hv => (newTransition hv _ _ _).reply _

end Agrees

end Act

namespace World

open Act

variable {d d' : Ref Duration} {w w' : World κ}

theorem Alike.step_shared (h : Alike d w w') {op : Op} (hop : op.isShared = true) :
    Alike d (w.step op).2 (w'.step op).2 := by
  have hdone : ∀ monotonic clocks lengths descriptions journal journal', Alike d _ _ :=
    h.reshared
  cases op with
  | newDescriptionOfText name text =>
    exact Agrees.alike (.bind (.query h rfl) fun s _ _ hv => (Agrees.newDescription hv s).reply _)
  | onClock r op =>
    cases op with
    | advance ms => exact ((Agrees.advance h r ms).reply _).alike
    | read => exact h
    | reset now =>
      rw [h.frame]
      exact hdone _ _ _ _ _ _
  | onLength r op =>
    cases op with
    | setText text => exact ((Agrees.setLengthText h r text).reply _).alike
    | shown =>
      rw [h.frame]
      exact Agrees.alike (.get_bind ((Agrees.query (hdone _ _ _ _ _ _) rfl).reply _))
    | name | value | default => exact h
    | set | reset =>
      rw [h.frame]
      exact hdone _ _ _ _ _ _
  | onDescription r op =>
    cases op with
    | setText text => exact ((Agrees.setDescriptionText h r text).reply _).alike
    | shown =>
      rw [h.frame]
      exact Agrees.alike (.get_bind ((Agrees.query (hdone _ _ _ _ _ _) rfl).reply _))
    | name | value | default => exact h
    | set | reset =>
      rw [h.frame]
      exact hdone _ _ _ _ _ _
  | setMonotonic | newClock | newLength | newDescription =>
    rw [h.frame]
    exact hdone _ _ _ _ _ _
  | _ => simp [Op.isShared, Op.isClock, Op.isSetting] at hop

/-- What is done to another duration, or to what is built on it, stays out of sight. -/
theorem alike_of_ne (hd : d.index < w.durations.next) {op : Op}
    (hplain : (Call.mk w op).isPlain = true) {q : Ref Duration} (hq : q ≠ d)
    (hsubject : (Call.mk w op).subject = some q) : Alike d w (w.step op).2 := by
  have hrefl : Alike d w w := .refl hd
  have hlook : ∀ v count, Alike d w v → Alike d w (v.noticed count) := fun _ _ hv => hv.noticed _
  cases op with
  | onDuration p op =>
    obtain rfl : p = q := Option.some.inj hsubject
    exact Keeps.durationOp (fun _ _ f hv => hv.withTimer hq f) hlook w hrefl
  | onTransition r op =>
    have hr : (w.transitions.get r).duration = q := Option.some.inj hsubject
    exact Keeps.transitionOp op (fun _ _ hf hv => hv.modify (hr ▸ hq) hf) hlook w hrefl
  | animate a values =>
    have ha : a.duration = q := Option.some.inj hsubject
    have hr : (w.transitions.get a.transition).duration = q :=
      (of_decide_eq_true hplain).trans ha
    exact (Keeps.animate (fun _ f hv => hv.withTimer (ha ▸ hq) f)
      (fun _ _ hf hv => hv.modify (hr ▸ hq) hf) hlook values).reply _ w hrefl
  | _ => cases hsubject

theorem Alike.isPlain (h : Alike d w w') (op : Op) :
    (Call.mk w' op).isPlain = (Call.mk w op).isPlain := by
  cases op with
  | animate a values => simp only [Call.isPlain, h.built]
  | _ => rfl

theorem Alike.subject (h : Alike d w w') (op : Op) :
    (Call.mk w' op).subject = (Call.mk w op).subject := by
  cases op with
  | onTransition r op => simp only [Call.subject, h.built]
  | _ => rfl

theorem Alike.concerns (h : Alike d w w') (op : Op) :
    (Call.mk w' op).concerns d = (Call.mk w op).concerns d := by
  cases op with
  | onTransition r op => simp only [Call.concerns, h.subject]
  | _ => rfl

theorem Alike.viewTransition (h : Alike d w w') {r : Ref Transition}
    (hr : (w.transitions.get r).duration = d) : w'.viewTransition r = w.viewTransition r := by
  rw [World.viewTransition, World.viewTransition, World.value, World.value, h.own r hr, hr,
    h.twin.progress]

theorem Alike.step_of_ne (h : Alike d w w') {op : Op} (hplain : (Call.mk w op).isPlain = true)
    {q : Ref Duration} (hq : q ≠ d) (hsubject : (Call.mk w op).subject = some q) :
    Alike d (w.step op).2 (w'.step op).2 :=
  h.congr (alike_of_ne h.known hplain hq hsubject)
    (alike_of_ne h.symm.known ((h.isPlain op).trans hplain) hq ((h.subject op).trans hsubject))

/-- An operation that works on no system keeps the worlds alike, and has the same outcome in both if
it works on the duration or on what is built on it. -/
theorem Alike.step (h : Alike d w w') {op : Op} (hplain : (Call.mk w op).isPlain = true) :
    Alike d (w.step op).2 (w'.step op).2 ∧
      ((Call.mk w op).concerns d = true → (w'.step op).1 = (w.step op).1) := by
  have both : ∀ {act act' : Act κ Reply}, Agrees d act act' w w' →
      Alike d (act.perform w).2 (act'.perform w').2 ∧
        ((Call.mk w op).concerns d = true → (act'.perform w').1 = (act.perform w).1) :=
    fun hact => ⟨hact.alike, fun _ => hact.outcome⟩
  have other : ∀ q, q ≠ d → (Call.mk w op).subject = some q →
      Alike d (w.step op).2 (w'.step op).2 ∧
        ((Call.mk w op).concerns d = true → (w'.step op).1 = (w.step op).1) := by
    intro q hq hsubject
    refine ⟨h.step_of_ne hplain hq hsubject, fun hd => ?_⟩
    rw [Call.concerns_of_ne hsubject hq] at hd
    cases hd
  -- What an operation works on is this duration, another one, or none.
  cases op with
  | newDuration spec => exact both ((Agrees.newDuration h spec).reply _)
  | newAnimation spec => exact both ((Agrees.newAnimation h spec).reply _)
  | newTransition q start finish => exact both ((Agrees.newTransition h q start finish).reply _)
  | clone q => exact both (.reply (.get_bind (Agrees.addDuration h _ _)) _)
  | onDuration q op =>
    by_cases hq : q = d
    · subst hq
      exact both (Agrees.durationOp h op)
    · exact other q hq rfl
  | onTransition r op =>
    by_cases hr : (w.transitions.get r).duration = d
    · exact both (Agrees.transitionOp h hr op)
    · exact other _ hr rfl
  | animate a values =>
    by_cases ha : a.duration = d
    · exact both ((Agrees.animate h ha ((of_decide_eq_true hplain).trans ha) values).reply _)
    · exact other _ ha rfl
  | newTarget | newBinding | newSystem =>
    exact ⟨⟨⟨h.twin.monotonic, h.twin.clocks, h.twin.lengths, h.twin.descriptions,
      h.twin.duration⟩, h.known, h.durations, h.transitions, h.built, h.own⟩, nofun⟩
  | onSystem => cases hplain
  | setMonotonic | newClock | newLength | newDescription | newDescriptionOfText | onClock |
    onLength | onDescription => exact ⟨h.step_shared rfl, nofun⟩

def answers (w : World κ) (d : Ref Duration) (ops : List Op) : List (Op × Except Fault Reply) :=
  ((w.calls ops).filter (·.concerns d)).map fun c => (c.op, c.outcome)

/-- The operations of a run that are left when those that drive a duration are taken out. -/
def without (w : World κ) (d : Ref Duration) (ops : List Op) : List Op :=
  ((w.calls ops).filter (!·.drives d)).map Call.op

theorem answers_cons (w : World κ) (d : Ref Duration) (op : Op) (rest : List Op) :
    w.answers d (op :: rest) =
      (if (Call.mk w op).concerns d then [(op, (w.step op).1)] else []) ++
        (w.step op).2.answers d rest := by
  rw [answers, calls, List.filter_cons]
  split <;> rfl

theorem without_cons (w : World κ) (d : Ref Duration) (op : Op) (rest : List Op) :
    w.without d (op :: rest) =
      if (Call.mk w op).drives d then (w.step op).2.without d rest
      else op :: (w.step op).2.without d rest := by
  rw [without, calls, List.filter_cons]
  cases (Call.mk w op).drives d <;> rfl

theorem Alike.after_without (h : Alike d w w') (hne : d' ≠ d) {ops : List Op}
    (hplain : ∀ c ∈ w.calls ops, c.isPlain = true) :
    w'.answers d (w.without d' ops) = w.answers d ops ∧
      Alike d (w.after ops) (w'.after (w.without d' ops)) := by
  induction ops generalizing w w' with
  | nil => exact ⟨rfl, h⟩
  | cons op rest ih =>
    simp only [calls, List.forall_mem_cons] at hplain
    rw [without_cons, answers_cons]
    split
    · next hdrives =>
      -- The operation is taken out, and is none on `d`.
      have hsubject := Call.subject_of_drives hdrives
      have halike : Alike d (w.step op).2 w' :=
        h.congr (alike_of_ne h.known hplain.1 hne hsubject) (.refl h.symm.known)
      rw [Call.concerns_of_ne hsubject hne]
      exact ih halike hplain.2
    · obtain ⟨hstep, houtcome⟩ := h.step hplain.1
      obtain ⟨hanswers, hafter⟩ := ih hstep hplain.2
      refine ⟨?_, hafter⟩
      rw [answers_cons, hanswers, h.concerns]
      split
      · next hconcerns => rw [houtcome hconcerns]
      · rfl

/-- Durations meet in settings and clocks only: what drives one shows in no answer of another, and a
copy answers as its original does until one of the two is worked on. -/
theorem separate_but_shared (w : World κ) {d d' : Ref Duration} (hd : d.index < w.durations.next)
    (hd' : d'.index < w.durations.next) :
    (d' ≠ d → ∀ ops, (∀ c ∈ w.calls ops, c.isPlain = true) →
      let rest := w.without d' ops
      w.answers d rest = w.answers d ops ∧
        (w.after rest).viewDuration d = (w.after ops).viewDuration d ∧
        ∀ r, ((w.after ops).transitions.get r).duration = d →
          (w.after rest).viewTransition r = (w.after ops).viewTransition r) ∧
    (∀ ops, let u := w.after ops
      ((w.durations.get d').source = (w.durations.get d).source → u.length d' = u.length d ∧
        ((w.durations.get d').smoothing = (w.durations.get d).smoothing →
          u.easing d' = u.easing d)) ∧
      ((w.durations.get d').clock = (w.durations.get d).clock → u.nowOf d' = u.nowOf d) ∧
      (∀ r, (w.durations.get d).source = .length r → u.length d = max 1 (u.lengths.get r).value) ∧
      (∀ r, (w.durations.get d).source = .description r →
        u.length d = max 1 (u.descriptions.get r).value.length ∧
          u.easing d = (u.descriptions.get r).value.easing) ∧
      u.nowOf d = u.now (w.durations.get d).clock) ∧
    ∃ q, (w.step (.clone d)).1 = .ok (.made (.duration q)) ∧ q ≠ d ∧
      ∀ ops, (∀ c ∈ (w.step (.clone d)).2.calls ops, c.moves d = false ∧ c.moves q = false) →
        let u := (w.step (.clone d)).2.after ops
        u.viewDuration q = u.viewDuration d ∧
          ∀ op, (u.step (.onDuration q op)).1 = (u.step (.onDuration d op)).1 := by
  refine ⟨fun hne ops hplain => ?_, fun ops => ?_, ?_⟩
  · obtain ⟨hanswers, halike⟩ := (Alike.refl hd).after_without hne hplain
    exact ⟨hanswers, halike.twin.view, fun r hr => halike.viewTransition hr⟩
  · obtain ⟨hsource, hsmoothing, hclock⟩ := origin_after hd ops
    obtain ⟨hsource', hsmoothing', hclock'⟩ := origin_after hd' ops
    refine ⟨fun hs => ⟨?_, fun he => ?_⟩, fun hc => ?_, fun r hr => ?_, fun r hr => ?_, ?_⟩
    · rw [length, length, hsource', hsource, hs]
    · rw [easing, easing, hsource', hsource, hsmoothing', hsmoothing, hs, he]
    · rw [nowOf, nowOf, hclock', hclock, hc]
    · rw [length, hsource, hr]
    · exact ⟨by rw [length, hsource, hr], by rw [easing, hsource, hr]⟩
    · rw [nowOf, hclock]
  · obtain ⟨q, hmade, hne, htwin⟩ := twin_clone hd
    exact ⟨q, hmade, hne, fun ops hops => ⟨(htwin ops hops).view, (htwin ops hops).outcome⟩⟩

/-- A running duration and its copy, a transition on each: turning the copy and sending its
transition on does not show in the original, where a new length does. Left alone, the two agree. -/
theorem separate_but_shared_copy :
    let w := (solo 100).after [.onDuration ⟨0⟩ .start, .onClock ⟨0⟩ (.advance 40), .clone ⟨0⟩,
      .newTransition ⟨0⟩ 0.0 1.0, .newTransition ⟨1⟩ 0.0 1.0]
    let ops : List Op := [.onDuration ⟨1⟩ .reverse, .onTransition ⟨1⟩ (.retarget 5.0),
      .onLength ⟨0⟩ (.set 30), .onDuration ⟨0⟩ .poll, .onTransition ⟨0⟩ .value]
    let ticks : List Op := [.onClock ⟨0⟩ (.advance 60), .onDuration ⟨0⟩ .phase]
    (∀ c ∈ w.calls ops, c.isPlain = true) ∧ (w.without ⟨1⟩ ops).length = 3 ∧
      w.answers ⟨0⟩ (w.without ⟨1⟩ ops) = w.answers ⟨0⟩ ops ∧
      (w.after ops).length ⟨1⟩ = (w.after ops).length ⟨0⟩ ∧ (w.after ops).length ⟨0⟩ = 30 ∧
      ∃ q, (w.step (.clone ⟨0⟩)).1 = .ok (.made (.duration q)) ∧
        (((w.step (.clone ⟨0⟩)).2.after ticks).step (.onDuration q .consume)).1 =
          .ok (.flag true) := by
  intro w ops ticks
  have hplain : ∀ c ∈ w.calls ops, c.isPlain = true := by decide
  have hfirst : (⟨0⟩ : Ref Duration).index < w.durations.next := by decide
  have hsecond : (⟨1⟩ : Ref Duration).index < w.durations.next := by decide
  obtain ⟨hseparate, hshared, q, hmade, -, htwin⟩ := separate_but_shared w hfirst hsecond
  refine ⟨hplain, by decide +kernel, (hseparate (by decide) ops hplain).1,
    ((hshared ops).1 rfl).1, by decide +kernel, q, hmade, ?_⟩
  obtain rfl : q = ⟨2⟩ := (Handle.duration.inj (Reply.made.inj (Except.ok.inj hmade))).symm
  rw [(htwin ticks (by decide)).2 .consume, outcome_consume]
  exact congrArg (fun b => Except.ok (Reply.flag b)) (by decide)

end World

end Tween
