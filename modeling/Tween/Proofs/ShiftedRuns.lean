import Tween.Proofs.Shifting

namespace Tween

variable {κ α β : Type}

namespace World

variable {home : κ → List Clock} {w w' : World κ}

theorem Knows.mono {clock : Clock} (h : w.Knows clock)
    (hle : ∀ r, w.clocks.Holds r → w'.clocks.Holds r) : w'.Knows clock := by
  cases clock with
  | system => trivial
  | manual r => exact hle r h

theorem Grounded.withTimer (h : w.Grounded home) (d : Ref Duration) (f : Timer → Timer) :
    (w.withTimer d f).Grounded home where
  durations q := by
    rw [get_withTimer]
    split
    · exact h.durations q
    · exact h.durations q
  home := h.home

theorem Grounded.looked (h : w.Grounded home) (d : Ref Duration) (count : Nat) :
    (w.looked d count).Grounded home :=
  ⟨h.durations, h.home⟩

theorem Grounded.addDuration (h : w.Grounded home) {x : Duration} (hx : w.Knows x.clock) :
    Grounded home { w with durations := (w.durations.add x).2 } where
  durations q := by
    change w.Knows ((w.durations.add x).2.get q).clock
    rw [Store.get, Store.add, Store.lookup_replace]
    split
    · exact hx
    · exact h.durations q
  home := h.home

theorem Grounded.withClocks (h : w.Grounded home) {clocks : Store ManualClock}
    (hle : ∀ r, w.clocks.Holds r → clocks.Holds r) : Grounded home { w with clocks } where
  durations q := (h.durations q).mono hle
  home clock hclock := (h.home clock hclock).imp fun r hr => hr.imp_right (hle r)

end World

namespace Act

open World

/-- Whether `act'` does in the shifted world what `act` does in `w`, which stays grounded. -/
structure Drifts (c : Int) (home : κ → List Clock) (w : World κ) (act act' : Act κ α) : Prop where
  perform : act'.perform (w.shifted c) = ((act.perform w).1, (act.perform w).2.shifted c)
  grounded : (act.perform w).2.Grounded home

namespace Drifts

variable {c : Int} {home : κ → List Clock} {w : World κ}

theorem of_perform {act act' : Act κ α} {r : Except Fault α} {v : World κ}
    (h : act.perform w = (r, v)) (h' : act'.perform (w.shifted c) = (r, v.shifted c))
    (hv : v.Grounded home) : Drifts c home w act act' where
  perform := by rw [h, h']
  grounded := by rwa [h]

theorem pure (h : w.Grounded home) (a : α) : Drifts c home w (pure a) (pure a) :=
  of_perform rfl rfl h

theorem query (h : w.Grounded home) {f : World κ → Except Fault α} (hf : f (w.shifted c) = f w) :
    Drifts c home w (Act.query f) (Act.query f) :=
  of_perform (perform_query f w) (by rw [perform_query, hf]) h

theorem get_bind {f f' : World κ → Act κ α} (h : Drifts c home w (f w) (f' (w.shifted c))) :
    Drifts c home w ((get : Act κ (World κ)) >>= f) ((get : Act κ (World κ)) >>= f') :=
  ⟨h.perform, h.grounded⟩

theorem bind {act act' : Act κ α} {f f' : α → Act κ β} (h : Drifts c home w act act')
    (hf : ∀ a v, v.Grounded home → Drifts c home v (f a) (f' a)) :
    Drifts c home w (act >>= f) (act' >>= f') := by
  obtain ⟨hperform, hgrounded⟩ := h
  rcases hact : act.perform w with ⟨fault | a, v⟩ <;> rw [hact] at hperform hgrounded
  · exact of_perform (by rw [perform_bind, hact]) (by rw [perform_bind, hperform]) hgrounded
  · have hrest := hf a v hgrounded
    refine of_perform (perform_bind_ok f hact) ?_ hrest.grounded
    rw [perform_bind_ok f' hperform]
    exact hrest.perform

theorem reply {act act' : Act κ α} (h : Drifts c home w act act') (f : α → β) :
    Drifts c home w (act >>= fun a => Pure.pure (f a)) (act' >>= fun a => Pure.pure (f a)) :=
  h.bind fun a _ hv => .pure hv (f a)

theorem forM {f : α → Act κ Unit} (hf : ∀ a v, v.Grounded home → Drifts c home v (f a) (f a))
    (h : w.Grounded home) (xs : List α) : Drifts c home w (xs.forM f) (xs.forM f) := by
  induction xs generalizing w with
  | nil => exact .pure h ()
  | cons a rest ih =>
    rw [List.forM_eq_forM, List.forM_cons]
    exact (hf a w h).bind fun _ _ hv => ih hv

theorem mapM {f : α → Act κ β} (hf : ∀ a v, v.Grounded home → Drifts c home v (f a) (f a))
    (h : w.Grounded home) (xs : List α) : Drifts c home w (xs.mapM f) (xs.mapM f) := by
  induction xs generalizing w with
  | nil => exact .pure h []
  | cons a rest ih =>
    rw [List.mapM_cons]
    exact (hf a w h).bind fun b _ hv => (ih hv).bind fun bs _ hv' => .pure hv' (b :: bs)

variable (h : w.Grounded home) (d : Ref Duration) (r : Ref Transition) (s : Ref System)
include h

theorem length : Drifts c home w (length d) (length d) :=
  of_perform (perform_length d w)
    (by rw [perform_length, length_shifted, looked_shifted]) (h.looked d 1)

theorem phase : Drifts c home w (phase d) (phase d) :=
  of_perform (perform_phase d w)
    (by rw [perform_phase, phase_shifted h, lookups_shifted, looked_shifted])
    (h.looked d _)

theorem progress : Drifts c home w (progress d) (progress d) :=
  of_perform (perform_progress d w)
    (by rw [perform_progress, progress_shifted h, lookups_shifted, looked_shifted])
    (h.looked d _)

theorem durationText : Drifts c home w (durationText d) (durationText d) :=
  of_perform (perform_durationText d w)
    (by rw [perform_durationText, durationText_shifted h, lookups_shifted, looked_shifted])
    (h.looked d _)

theorem value : Drifts c home w (value r) (value r) := by
  refine .get_bind ?_
  exact (progress h (w.transitions.get r).duration).reply (w.transitions.get r).at

theorem start : Drifts c home w (start d) (start d) := by
  refine of_perform (perform_start d w) ?_ (h.withTimer d _)
  rw [perform_start, nowOf_shifted h]
  exact congrArg (Prod.mk _) (withTimer_shifted (Timer.start_shifted _ _ _))

theorem reverse : Drifts c home w (reverse d) (reverse d) := by
  refine of_perform (perform_reverse d w) ?_ ((h.looked d 1).withTimer d _)
  rw [perform_reverse, looked_shifted, nowOf_shifted h, length_shifted]
  exact congrArg (Prod.mk _) (withTimer_shifted (Timer.reverse_shifted _ _ _ _))

theorem consume : Drifts c home w (consume d) (consume d) := by
  refine of_perform (perform_consume d w) ?_ ?_
  · rw [perform_consume, due_shifted h, lookups_shifted, looked_shifted]
    split
    · exact congrArg (Prod.mk _) (withTimer_shifted rfl)
    · rfl
  · split
    · exact (h.looked d _).withTimer d _
    · exact h.looked d _

theorem poll : Drifts c home w (poll d) (poll d) := by
  refine .get_bind (.bind ?_ fun _ v hv => .get_bind ?_)
  · rw [lookups_shifted]
    refine of_perform (perform_noteLookups d _ w) ?_ (h.looked d _)
    rw [perform_noteLookups, looked_shifted]
  · rw [finished_shifted hv]
    split
    · exact consume hv d
    · exact .pure hv true

omit h in
theorem addDuration (h : w.Grounded home) {x : Duration} (hx : w.Knows x.clock) :
    Drifts c home w (addDuration x) (addDuration (x.shifted c)) := by
  refine of_perform rfl ?_ (h.addDuration hx)
  have hadd : (w.shifted c).durations.add (x.shifted c) =
      ((w.durations.add x).1, (w.durations.add x).2.map (Duration.shifted c)) :=
    Store.add_map _ _ x
  exact congrArg (fun added : Ref Duration × Store Duration =>
    (Except.ok added.1, { w.shifted c with durations := added.2 })) hadd

theorem newDuration {spec : DurationSpec} (hclock : w.Knows spec.clock) :
    Drifts c home w (newDuration spec) (newDuration spec) := by
  rw [Act.newDuration]
  rcases hspec : spec.make with fault | x
  · refine of_perform (r := .error fault) (v := w) ?_ ?_ h <;> rfl
  · have hnew : x.clock = spec.clock ∧ x.shifted c = x := by
      rw [DurationSpec.make] at hspec
      split at hspec <;> cases hspec <;> exact ⟨rfl, rfl⟩
    have hadd := addDuration (c := c) h (x := x) (hnew.1 ▸ hclock)
    rw [hnew.2] at hadd
    exact ⟨hadd.perform, hadd.grounded⟩

theorem newAnimation {spec : DurationSpec} (hclock : w.Knows spec.clock) :
    Drifts c home w (newAnimation spec) (newAnimation spec) :=
  (newDuration h hclock).bind fun _ _ hv => .bind
    (of_perform rfl rfl ⟨hv.durations, hv.home⟩) fun _ _ hv' => .pure hv' _

theorem clone : Drifts c home w (clone d) (clone d) := by
  have hadd := addDuration (c := c) h (h.durations d)
  rw [← duration_shifted] at hadd
  exact ⟨hadd.perform, hadd.grounded⟩

theorem setEnds (start finish : Float) :
    Drifts c home w (setEnds r start finish) (setEnds r start finish) :=
  of_perform rfl rfl ⟨h.durations, h.home⟩

theorem retarget (finish : Float) : Drifts c home w (retarget r finish) (retarget r finish) :=
  (value h r).bind fun start _ hv => setEnds hv r start finish

theorem restartSame : Drifts c home w (restartSame r) (restartSame r) :=
  (value h r).bind fun _ _ hv => of_perform rfl rfl ⟨hv.durations, hv.home⟩

theorem animate (a : Animation) (values : List Float) :
    Drifts c home w (animate a values) (animate a values) := by
  match values with
  | [] => exact (restartSame h a.transition).bind fun _ _ hv => Drifts.start hv a.duration
  | [finish] => exact (retarget h a.transition finish).bind fun _ _ hv => Drifts.start hv a.duration
  | [start, finish] =>
    exact (setEnds h a.transition start finish).bind fun _ _ hv => Drifts.start hv a.duration
  | _ :: _ :: _ :: _ => exact of_perform rfl rfl h

theorem setLengthText (q : Ref (Setting Int)) (text : String) :
    Drifts c home w (setLengthText q text) (setLengthText q text) := by
  refine of_perform (perform_setLengthText w q text) ?_ ?_
  · rw [perform_setLengthText]
    rcases Text.Whole.read? text with _ | _ | n <;> rfl
  · rcases Text.Whole.read? text with _ | _ | n <;> exact ⟨h.durations, h.home⟩

theorem setDescriptionText (q : Ref (Setting Description)) (text : String) :
    Drifts c home w (setDescriptionText q text) (setDescriptionText q text) := by
  refine of_perform (perform_setDescriptionText w q text) ?_ ?_
  · rw [perform_setDescriptionText]
    rcases Description.read? text with _ | _ | a <;> rfl
  · rcases Description.read? text with _ | _ | a <;> exact ⟨h.durations, h.home⟩

theorem delist (b : Ref Binding) : Drifts c home w (delist s b) (delist s b) := by
  refine .get_bind ?_
  dsimp only
  rw [show (w.shifted c).systems = w.systems from rfl]
  split
  · exact of_perform rfl rfl ⟨h.durations, h.home⟩
  · exact of_perform rfl rfl h

theorem enlist (b : Ref Binding) : Drifts c home w (enlist s b) (enlist s b) :=
  of_perform rfl rfl ⟨h.durations, h.home⟩

theorem update (b : Ref Binding) : Drifts c home w (update b) (update b) := by
  refine .get_bind ((value h _).bind fun x v hv => ?_)
  exact of_perform rfl rfl ⟨hv.durations, hv.home⟩

omit h in
theorem tickWith (h : w.Grounded home) {report : Ref Binding → Act κ Unit}
    (hreport : ∀ b v, v.Grounded home → Drifts c home v (report b) (report b)) :
    Drifts c home w (tickWith s report) (tickWith s report) := by
  have hretire : ∀ due b v, v.Grounded home →
      Drifts c home v (retire s report due b) (retire s report due b) := by
    intro due b v hv
    refine (delist hv s b).bind fun _ v' hv' => ?_
    split
    · exact hreport b v' hv'
    · exact .pure hv' ()
  refine .get_bind (forM (fun g v hv => ?_) h _)
  refine (forM (fun b v hv => update hv b) hv _).bind fun _ v' hv' => ?_
  refine (phase hv' g.duration).bind fun phase u hu => ?_
  split
  · exact (consume hu g.duration).bind fun due v'' hv'' => forM (hretire due) hv'' _
  · exact .pure hu ()

theorem follow (policy : Policy) (b : Ref Binding) :
    Drifts c home w (follow s policy b) (follow s policy b) := by
  have hlog : Drifts c home w (log (.reported b)) (log (.reported b)) :=
    of_perform rfl rfl ⟨h.durations, h.home⟩
  cases policy with
  | ignore => exact .pure h ()
  | record => exact hlog
  | restart =>
    refine hlog.bind fun _ v hv => .get_bind ?_
    exact (start hv (v.durationOf b)).bind fun _ _ hv' => enlist hv' s b
  | clear => exact hlog.bind fun _ v hv => of_perform rfl rfl ⟨hv.durations, hv.home⟩

theorem tick : Drifts c home w (tick s) (tick s) :=
  .get_bind (tickWith s h fun b _ hv => follow hv s _ b)

end Drifts

end Act

/-- The operation with every reading that a clock is set to moved by `c`. -/
def Op.shifted (c : Int) : Op → Op
  | .newClock start => .newClock (start + c)
  | .onClock r (.reset now) => .onClock r (.reset (now + c))
  | op => op

def Op.clocks : Op → List Clock
  | .newDuration spec | .newAnimation spec => [spec.clock]
  | .onClock r _ => [.manual r]
  | _ => []

def Op.readsClock : Op → Bool
  | .onClock _ .read | .onClock _ (.advance _) => true
  | _ => false

def Reply.shifted (c : Int) : Reply → Reply
  | .whole n => .whole (n + c)
  | reply => reply

def Call.shiftedOutcome (c : Int) (a : Call κ) : Except Fault Reply :=
  if a.op.readsClock then a.outcome.map (Reply.shifted c) else a.outcome

namespace World

open Act

variable {c : Int} {home : κ → List Clock} {w : World κ}

theorem drifts_resetClock (h : w.Grounded home) (r : Ref ManualClock) (now : Int) :
    Drifts c home w (resetClock r now) (resetClock r (now + c)) := by
  refine .of_perform rfl ?_ (h.withClocks fun _ hq => hq.set r _)
  have hset : (w.clocks.map fun clock => ⟨clock.now + c⟩).set r ⟨now + c⟩ =
      (w.clocks.set r ⟨now⟩).map fun clock => ⟨clock.now + c⟩ := Store.set_map _ _ r (⟨now⟩ : ManualClock)
  exact congrArg (fun clocks => (Except.ok (), { w.shifted c with clocks })) hset

theorem drifts_newClock (h : w.Grounded home) (start : Int) :
    Drifts c home w (newClock start) (newClock (start + c)) := by
  refine .of_perform rfl ?_ (h.withClocks fun _ hq => hq.add _)
  have hadd : (w.clocks.map fun clock => ⟨clock.now + c⟩).add ⟨start + c⟩ =
      ((w.clocks.add ⟨start⟩).1, (w.clocks.add ⟨start⟩).2.map fun clock => ⟨clock.now + c⟩) :=
    Store.add_map _ _ (⟨start⟩ : ManualClock)
  exact congrArg (fun added : Ref ManualClock × Store ManualClock =>
    (Except.ok added.1, { w.shifted c with clocks := added.2 })) hadd

/-- A clock that is moved on moves on by the same step, and is refused the same one. -/
theorem perform_advance_shifted {r : Ref ManualClock} (hr : w.clocks.Holds r) (ms : Int) :
    (advance r ms).perform (w.shifted c) =
      (((advance r ms).perform w).1.map (· + c), ((advance r ms).perform w).2.shifted c) := by
  have hget : (w.shifted c).clocks.get r = ⟨(w.clocks.get r).now + c⟩ := Store.get_map _ (.inl hr)
  rw [perform_advance, perform_advance]
  split
  · rfl
  · have hset : (w.clocks.map fun clock => ⟨clock.now + c⟩).set r ⟨(w.clocks.get r).now + ms + c⟩ =
        (w.clocks.set r ⟨(w.clocks.get r).now + ms⟩).map fun clock => ⟨clock.now + c⟩ :=
      Store.set_map _ _ r (⟨_⟩ : ManualClock)
    rw [hget, Int.add_right_comm]
    exact congrArg (fun clocks => (Except.ok _, { w.shifted c with clocks })) hset

theorem grounded_advance (h : w.Grounded home) (r : Ref ManualClock) (ms : Int) :
    ((advance r ms).perform w).2.Grounded home := by
  rw [perform_advance]
  split
  · exact h
  · exact h.withClocks fun _ hq => hq.set r _

theorem drifts_durationOp (h : w.Grounded home) (d : Ref Duration) (op : DurationOp) :
    Drifts c home w (durationOp d op) (durationOp d op) := by
  cases op with
  | start => exact (Drifts.start h d).reply fun _ => Reply.done
  | reverse => exact (Drifts.reverse h d).reply fun _ => Reply.done
  | phase => exact (Drifts.phase h d).reply Reply.phase
  | length => exact (Drifts.length h d).reply Reply.whole
  | elapsed =>
    refine .get_bind ?_
    rw [elapsed_shifted h]
    exact .pure h _
  | progress => exact (Drifts.progress h d).reply Reply.number
  | fraction => exact (Drifts.query h (f := (·.fraction d)) (fraction_shifted h d)).reply Reply.number
  | poll => exact (Drifts.poll h d).reply Reply.flag
  | consume => exact (Drifts.consume h d).reply Reply.flag
  | direction =>
    refine .get_bind ?_
    rw [timer_shifted]
    exact .pure h _
  | easing =>
    refine .get_bind ?_
    rw [easing_shifted]
    exact .pure h _
  | shown => exact (Drifts.durationText h d).reply Reply.text

theorem drifts_transitionOp (h : w.Grounded home) (r : Ref Transition) (op : TransitionOp) :
    Drifts c home w (transitionOp r op) (transitionOp r op) := by
  cases op with
  | value => exact (Drifts.value h r).reply Reply.number
  | retarget finish => exact (Drifts.retarget h r finish).reply fun _ => Reply.done
  | restartSame => exact (Drifts.restartSame h r).reply fun _ => Reply.done
  | setEnds | flip | shown | start | finish => exact .of_perform rfl rfl ⟨h.durations, h.home⟩

/-- An operation that answers no reading has the same outcome in both worlds. -/
theorem drifts_operate (h : w.Grounded home) {op : Op} (hop : op.readsClock = false)
    (hclocks : ∀ clock ∈ op.clocks, w.Knows clock) :
    Drifts c home w (operate op) (operate (op.shifted c)) := by
  cases op with
  | newClock start => exact (drifts_newClock h start).reply fun r => Reply.made (.clock r)
  | newDescriptionOfText name text =>
    exact (Drifts.query h rfl).bind fun s _ hv => .of_perform rfl rfl ⟨hv.durations, hv.home⟩
  | newDuration spec =>
    exact (Drifts.newDuration h (hclocks _ List.mem_cons_self)).reply fun d => Reply.made (.duration d)
  | newAnimation spec =>
    exact (Drifts.newAnimation h (hclocks _ List.mem_cons_self)).reply fun a => Reply.made (.animation a)
  | clone d => exact (Drifts.clone h d).reply fun q => Reply.made (.duration q)
  | onClock r op =>
    cases op with
    | reset now => exact (drifts_resetClock h r now).reply fun _ => Reply.done
    | read | advance => cases hop
  | onLength r op =>
    cases op with
    | setText text => exact (Drifts.setLengthText h r text).reply Reply.flag
    | shown => exact .get_bind ((Drifts.query h rfl).reply _)
    | name | value | default | set | reset => exact .of_perform rfl rfl ⟨h.durations, h.home⟩
  | onDescription r op =>
    cases op with
    | setText text => exact (Drifts.setDescriptionText h r text).reply Reply.flag
    | shown => exact .get_bind ((Drifts.query h rfl).reply _)
    | name | value | default | set | reset => exact .of_perform rfl rfl ⟨h.durations, h.home⟩
  | onDuration d op => exact drifts_durationOp h d op
  | onTransition r op => exact drifts_transitionOp h r op
  | animate a values => exact (Drifts.animate h a values).reply fun _ => Reply.done
  | onSystem s op =>
    cases op with
    | add b => exact (Drifts.enlist h s b).reply fun _ => Reply.done
    | tick => exact (Drifts.tick h s).reply fun _ => Reply.done
  | setMonotonic | newLength | newDescription | newTransition | newTarget | newBinding | newSystem =>
    exact .of_perform rfl rfl ⟨h.durations, h.home⟩

/-- An operation does the same in both worlds, up to the reading that it may answer. -/
theorem step_shifted (h : w.Grounded home) {op : Op}
    (hclocks : ∀ clock ∈ op.clocks, w.Knows clock) :
    (w.shifted c).step (op.shifted c) =
        ((Call.mk w op).shiftedOutcome c, (w.step op).2.shifted c) ∧
      (w.step op).2.Grounded home := by
  cases hop : op.readsClock with
  | false =>
    obtain ⟨hperform, hgrounded⟩ := drifts_operate (c := c) h hop hclocks
    refine ⟨?_, hgrounded⟩
    rw [Call.shiftedOutcome, hop]
    exact hperform
  | true =>
    rw [Call.shiftedOutcome, hop, if_pos rfl]
    cases op with
    | onClock r op =>
      have hr : w.clocks.Holds r := hclocks _ List.mem_cons_self
      cases op with
      | read =>
        have hget : (w.shifted c).clocks.get r = ⟨(w.clocks.get r).now + c⟩ :=
          Store.get_map _ (.inl hr)
        refine ⟨?_, h⟩
        change (Except.ok (Reply.whole ((w.shifted c).clocks.get r).now), w.shifted c) = _
        rw [hget]
        rfl
      | advance ms =>
        have hrun := perform_advance_shifted (c := c) hr ms
        have hstep : ∀ v : World κ, v.step (.onClock r (.advance ms)) =
            (((advance r ms).perform v).1.map .whole, ((advance r ms).perform v).2) := fun v =>
          perform_bind_pure (advance r ms) Reply.whole v
        change (w.shifted c).step (.onClock r (.advance ms)) = _ ∧ _
        have hgrounded := grounded_advance h r ms
        rw [hstep, Call.outcome, hstep, hrun]
        refine ⟨?_, hgrounded⟩
        cases ((advance r ms).perform w).1 <;> rfl
      | reset => cases hop
    | _ => cases hop

/-- A run from a shifted world, with all readings that clocks are set to shifted, answers as the
original one does and leaves its world shifted. -/
theorem run_shifted {ops : List Op} (h : w.Grounded home)
    (hclocks : ∀ a ∈ w.calls ops, ∀ clock ∈ a.op.clocks, a.before.Knows clock) :
    (w.shifted c).run (ops.map (·.shifted c)) =
        ((w.calls ops).map (·.shiftedOutcome c), (w.after ops).shifted c) ∧
      (w.after ops).Grounded home := by
  induction ops generalizing w with
  | nil => exact ⟨rfl, h⟩
  | cons op rest ih =>
    simp only [calls, List.forall_mem_cons] at hclocks
    obtain ⟨hstep, hgrounded⟩ := step_shifted (c := c) h hclocks.1
    obtain ⟨hrest, hrun⟩ := ih hgrounded hclocks.2
    refine ⟨?_, hrun⟩
    rw [List.map_cons, run, hstep]
    dsimp only
    rw [hrest]
    rfl

end World

end Tween
