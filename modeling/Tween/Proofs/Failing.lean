import Tween.Proofs.Calls

namespace Tween

variable {κ α β : Type}

namespace World

def noticed (w : World κ) (count : Nat) : World κ :=
  { w with journal := w.journal ++ .replicate count (.noted .noLength) }

theorem noticed_zero (w : World κ) : w.noticed 0 = w := by
  simp [noticed]

theorem noticed_noticed (w : World κ) (m n : Nat) :
    (w.noticed m).noticed n = w.noticed (m + n) := by
  simp [noticed]

theorem exists_looked_eq (w : World κ) (d : Ref Duration) (count : Nat) :
    ∃ n, w.looked d count = w.noticed n := by
  cases h : w.hasLength d
  · exact ⟨count, by simp [looked, noticed, h]⟩
  · exact ⟨0, by simp [looked, noticed, h]⟩

end World

namespace Act

/-- Whether an action leaves notices at most, whatever becomes of it. -/
def Looks (act : Act κ α) : Prop :=
  ∀ w, ∃ count, (act.perform w).2 = w.noticed count

def Total (act : Act κ α) : Prop :=
  ∀ w, ∃ a, (act.perform w).1 = .ok a

/-- Whether an action that fails leaves notices at most. -/
def Strict (act : Act κ α) : Prop :=
  ∀ w fault, (act.perform w).1 = .error fault → ∃ count, (act.perform w).2 = w.noticed count

theorem Total.bind {act : Act κ α} {f : α → Act κ β} (h : Total act) (hf : ∀ a, Total (f a)) :
    Total (act >>= f) := by
  intro w
  obtain ⟨a, ha⟩ := h w
  rw [perform_bind_ok f (Prod.ext ha rfl)]
  exact hf a _

namespace Looks

theorem of_looked {act : Act κ α} (h : ∀ w, ∃ d count, (act.perform w).2 = w.looked d count) :
    Looks act := by
  intro w
  obtain ⟨d, count, hw⟩ := h w
  rw [hw]
  exact w.exists_looked_eq d count

theorem query (f : World κ → Except Fault α) : Looks (query f) := by
  intro w
  exact ⟨0, by rw [perform_query, w.noticed_zero]⟩

theorem phase (d : Ref Duration) : Looks (phase d : Act κ Phase) :=
  of_looked fun w => ⟨d, w.lookups d, by rw [perform_phase]⟩

theorem length (d : Ref Duration) : Looks (length d : Act κ Int) :=
  of_looked fun w => ⟨d, 1, by rw [perform_length]⟩

theorem progress (d : Ref Duration) : Looks (progress d : Act κ Float) :=
  of_looked fun w => ⟨d, w.lookups d, by rw [perform_progress]⟩

theorem durationText (d : Ref Duration) : Looks (durationText d : Act κ String) :=
  of_looked fun w => ⟨d, w.lookups d + 1, by rw [perform_durationText]⟩

theorem value (r : Ref Transition) : Looks (value r : Act κ Float) :=
  of_looked fun w => ⟨(w.transitions.get r).duration, _, by rw [perform_value]⟩

end Looks

namespace Strict

theorem of_looks {act : Act κ α} (h : Looks act) : Strict act :=
  fun w _ _ => h w

theorem of_total {act : Act κ α} (h : Total act) : Strict act := by
  intro w fault hfault
  obtain ⟨a, ha⟩ := h w
  rw [ha] at hfault
  cases hfault

theorem after_looks {act : Act κ α} {f : α → Act κ β} (h : Looks act) (hf : ∀ a, Strict (f a)) :
    Strict (act >>= f) := by
  intro w fault hfault
  obtain ⟨m, hm⟩ := h w
  rw [perform_bind] at hfault ⊢
  -- Either half may fail; the notices of the first one stay in both cases.
  rcases hact : act.perform w with ⟨_ | a, v⟩ <;> rw [hact] at hm hfault
  · exact ⟨m, hm⟩
  · obtain ⟨n, hn⟩ := hf a v fault hfault
    obtain rfl : v = w.noticed m := hm
    exact ⟨m + n, by rw [hn, World.noticed_noticed]⟩

theorem then_total {act : Act κ α} {f : α → Act κ β} (h : Strict act) (hf : ∀ a, Total (f a)) :
    Strict (act >>= f) := by
  intro w fault hfault
  rw [perform_bind] at hfault ⊢
  -- The fault is that of the first half, since the second one has none.
  rcases hact : act.perform w with ⟨e | a, v⟩ <;> rw [hact] at hfault
  · have := h w e (by rw [hact])
    rwa [hact] at this
  · obtain ⟨b, hb⟩ := hf a v
    rw [hb] at hfault
    cases hfault

theorem reply {act : Act κ α} (h : Strict act) (f : α → β) : Strict (act >>= fun a => pure (f a)) :=
  h.then_total fun a _ => ⟨f a, rfl⟩

theorem newDuration (spec : DurationSpec) : Strict (newDuration spec : Act κ (Ref Duration)) :=
  after_looks (.query _) fun _ => of_total fun _ => ⟨_, rfl⟩

theorem newAnimation (spec : DurationSpec) : Strict (newAnimation spec : Act κ Animation) :=
  (newDuration spec).then_total fun _ => .bind (fun _ => ⟨_, rfl⟩) fun _ _ => ⟨_, rfl⟩

theorem advance (r : Ref ManualClock) (ms : Int) : Strict (advance r ms : Act κ Int) := by
  intro w fault
  rw [perform_advance]
  split
  · exact fun _ => ⟨0, w.noticed_zero.symm⟩
  · exact nofun

theorem setLengthText (r : Ref (Setting Int)) (text : String) :
    Strict (setLengthText r text : Act κ Bool) := by
  refine after_looks (.query _) fun n => of_total ?_
  cases n with
  | none => exact fun _ => ⟨_, rfl⟩
  | some n => exact fun _ => ⟨_, rfl⟩

theorem setDescriptionText (r : Ref (Setting Description)) (text : String) :
    Strict (setDescriptionText r text : Act κ Bool) := by
  refine after_looks (.query _) fun d => of_total ?_
  cases d with
  | none => exact fun _ => ⟨_, rfl⟩
  | some d => exact fun _ => ⟨_, rfl⟩

theorem retarget (r : Ref Transition) (finish : Float) :
    Strict (retarget r finish : Act κ Unit) :=
  after_looks (.value r) fun _ => of_total fun _ => ⟨_, rfl⟩

theorem restartSame (r : Ref Transition) : Strict (restartSame r : Act κ Unit) :=
  after_looks (.value r) fun _ => of_total fun _ => ⟨_, rfl⟩

/-- The new ends are in place, or refused, before the duration is started. -/
theorem animate (a : Animation) (values : List Float) : Strict (animate a values : Act κ Unit) := by
  have hstart : Total (start a.duration : Act κ Unit) := fun _ => ⟨_, rfl⟩
  match values with
  | [] => exact (restartSame a.transition).then_total fun _ => hstart
  | [finish] => exact (retarget a.transition finish).then_total fun _ => hstart
  | [start, finish] => exact of_total (.bind (fun _ => ⟨_, rfl⟩) fun _ => hstart)
  | _ :: _ :: _ :: _ => exact of_looks fun w => ⟨0, w.noticed_zero.symm⟩

end Strict

theorem total_consume (d : Ref Duration) : Total (consume d : Act κ Bool) :=
  fun w => ⟨_, by rw [perform_consume]⟩

theorem total_poll (d : Ref Duration) : Total (poll d : Act κ Bool) := by
  intro w
  rw [perform_poll]
  split
  · exact total_consume d _
  · exact ⟨_, rfl⟩

theorem strict_clockOp (r : Ref ManualClock) (op : ClockOp) :
    Strict (clockOp r op : Act κ Reply) := by
  cases op with
  | advance ms => exact (Strict.advance r ms).reply _
  | read | reset => exact .of_total fun _ => ⟨_, rfl⟩

theorem strict_lengthOp (r : Ref (Setting Int)) (op : SettingOp Int) :
    Strict (lengthOp r op : Act κ Reply) := by
  cases op with
  | setText text => exact (Strict.setLengthText r text).reply _
  | shown =>
    intro w
    rw [lengthOp, perform_get_bind]
    exact Strict.reply (.of_looks (.query _)) _ w
  | name | value | default | set | reset => exact .of_total fun _ => ⟨_, rfl⟩

theorem strict_descriptionOp (r : Ref (Setting Description)) (op : SettingOp Description) :
    Strict (descriptionOp r op : Act κ Reply) := by
  cases op with
  | setText text => exact (Strict.setDescriptionText r text).reply _
  | shown =>
    intro w
    rw [descriptionOp, perform_get_bind]
    exact Strict.reply (.of_looks (.query _)) _ w
  | name | value | default | set | reset => exact .of_total fun _ => ⟨_, rfl⟩

theorem strict_durationOp (d : Ref Duration) (op : DurationOp) :
    Strict (durationOp d op : Act κ Reply) := by
  cases op with
  | phase => exact .reply (.of_looks (.phase d)) _
  | length => exact .reply (.of_looks (.length d)) _
  | progress => exact .reply (.of_looks (.progress d)) _
  | fraction => exact .reply (.of_looks (.query _)) _
  | shown => exact .reply (.of_looks (.durationText d)) _
  | poll => exact .reply (.of_total (total_poll d)) _
  | consume => exact .reply (.of_total (total_consume d)) _
  | start | reverse | elapsed | direction | easing => exact .of_total fun _ => ⟨_, rfl⟩

theorem strict_transitionOp (r : Ref Transition) (op : TransitionOp) :
    Strict (transitionOp r op : Act κ Reply) := by
  cases op with
  | value => exact .reply (.of_looks (.value r)) _
  | retarget finish => exact (Strict.retarget r finish).reply _
  | restartSame => exact (Strict.restartSame r).reply _
  | setEnds | flip | shown | start | finish => exact .of_total fun _ => ⟨_, rfl⟩

theorem strict_operate {op : Op} (h : ∀ s, op ≠ .onSystem s .tick) :
    Strict (operate op : Act κ Reply) := by
  cases op with
  | newDescriptionOfText => exact .after_looks (.query _) fun _ => .of_total fun _ => ⟨_, rfl⟩
  | newDuration spec => exact (Strict.newDuration spec).reply _
  | newAnimation spec => exact (Strict.newAnimation spec).reply _
  | onClock r op => exact strict_clockOp r op
  | onLength r op => exact strict_lengthOp r op
  | onDescription r op => exact strict_descriptionOp r op
  | onDuration d op => exact strict_durationOp d op
  | onTransition r op => exact strict_transitionOp r op
  | animate a values => exact (Strict.animate a values).reply _
  | onSystem s op =>
    cases op with
    | add b => exact .of_total fun _ => ⟨_, rfl⟩
    | tick => exact absurd rfl (h s)
  | setMonotonic | newClock | newLength | newDescription | newTransition | clone | newTarget |
    newBinding | newSystem => exact .of_total fun _ => ⟨_, rfl⟩

end Act

namespace World

/-- An operation other than a tick that fails leaves every object as it was and makes none; all it
may leave are notices of a length that is not configured. -/
theorem unchanged_of_error (w : World κ) {op : Op} (hop : ∀ s, op ≠ .onSystem s .tick)
    {fault : Fault} (h : (w.step op).1 = .error fault) :
    ∃ count, (w.step op).2 =
      { w with journal := w.journal ++ List.replicate count (.noted .noLength) } :=
  Act.strict_operate hop w fault h

/-- An animation without a length that eases by the reciprocal, has been turned around, and is back
at its start, where zero has no reciprocal. -/
def backAtZero : World Unit :=
  World.empty.after [.newClock 0, .newAnimation { smoothing := .reciprocal, clock := .manual ⟨0⟩ },
    .onTransition ⟨0⟩ (.setEnds 3.0 7.0), .onDuration ⟨0⟩ .reverse, .onClock ⟨0⟩ (.advance 1)]

/-- Sent on to another end, the animation keeps both of its ends and its start. -/
theorem unchanged_of_error_backAtZero :
    (backAtZero.step (.animate ⟨⟨0⟩, ⟨0⟩⟩ [5.0])).1 = .error .divisionByZero ∧
      ((backAtZero.step (.animate ⟨⟨0⟩, ⟨0⟩⟩ [5.0])).2.transitions.get ⟨0⟩).start = 3.0 ∧
      (backAtZero.step (.animate ⟨⟨0⟩, ⟨0⟩⟩ [5.0])).2.timer ⟨0⟩ = ⟨some 0, false, true⟩ := by
  have hfault : (backAtZero.step (.animate ⟨⟨0⟩, ⟨0⟩⟩ [5.0])).1 = .error .divisionByZero := by
    rfl
  obtain ⟨count, hsame⟩ := backAtZero.unchanged_of_error (fun _ h => by cases h) hfault
  rw [hsame]
  have hstart : (backAtZero.transitions.get ⟨0⟩).start = 3.0 := by decide
  have htimer : backAtZero.timer ⟨0⟩ = ⟨some 0, false, true⟩ := by decide
  exact ⟨hfault, hstart, htimer⟩

end World

end Tween
