import Tween.World.View

namespace Tween

variable {κ α β : Type}

theorem Ref.ne_of_lt {r : Ref α} {n : Nat} (h : r.index < n) : r ≠ ⟨n⟩ :=
  fun heq => Nat.ne_of_lt h (congrArg Ref.index heq)

namespace Store

variable [Inhabited α]

theorem get_add_of_lt (s : Store α) (a : α) {r : Ref α} (h : r.index < s.next) :
    (s.add a).2.get r = s.get r := by
  rw [get, add, lookup_replace, if_neg (Nat.ne_of_gt h)]
  rfl

theorem get_add_self (s : Store α) (a : α) : (s.add a).2.get ⟨s.next⟩ = a := by
  rw [get, add, lookup_replace, if_pos rfl]

theorem get_add (s : Store α) (a : α) (r : Ref α) :
    (s.add a).2.get r = if r = ⟨s.next⟩ then a else s.get r := by
  simp only [get, add, lookup_replace, Ref.ext_iff, eq_comm]

end Store

namespace World

def looked (w : World κ) (d : Ref Duration) (count : Nat) : World κ :=
  { w with
    journal := w.journal ++ if w.hasLength d then [] else .replicate count (.noted .noLength) }

def withTimer (w : World κ) (d : Ref Duration) (f : Timer → Timer) : World κ :=
  { w with durations := w.durations.modify d fun x => { x with timer := f x.timer } }

theorem get_withTimer (w : World κ) (d q : Ref Duration) (f : Timer → Timer) :
    (w.withTimer d f).durations.get q =
      if d = q then { w.durations.get q with timer := f (w.timer q) }
      else w.durations.get q := by
  by_cases h : d = q
  · subst h
    simp [withTimer, Store.modify, timer]
  · simp [withTimer, Store.modify, Store.get_set_of_ne _ _ h, h]

theorem writes_looked (w : World κ) (d : Ref Duration) (count : Nat) :
    (w.looked d count).writes = w.writes := by
  unfold looked writes
  split <;> simp

theorem reports_looked (w : World κ) (d : Ref Duration) (count : Nat) :
    (w.looked d count).reports = w.reports := by
  unfold looked reports
  split <;> simp

end World

namespace Act

theorem perform_bind (act : Act κ α) (f : α → Act κ β) (w : World κ) :
    (act >>= f).perform w =
      match act.perform w with
      | (.ok a, w') => (f a).perform w'
      | (.error fault, w') => (.error fault, w') := by
  change ExceptT.bindCont f (act w).1 (act w).2 = _
  change _ = match act w with
    | (.ok a, w') => f a w'
    | (.error fault, w') => (.error fault, w')
  rcases act w with ⟨_ | a, w'⟩ <;> rfl

theorem perform_bind_ok {act : Act κ α} {a : α} {w w' : World κ} (f : α → Act κ β)
    (h : act.perform w = (.ok a, w')) : (act >>= f).perform w = (f a).perform w' := by
  rw [perform_bind, h]

theorem perform_bind_inv {act : Act κ α} {f : α → Act κ β} {w : World κ} {b : β}
    (h : ((act >>= f).perform w).1 = .ok b) :
    ∃ a w', act.perform w = (.ok a, w') ∧ ((f a).perform w').1 = .ok b := by
  rw [perform_bind] at h
  rcases hact : act.perform w with ⟨_ | a, w'⟩
  · rw [hact] at h
    cases h
  · rw [hact] at h
    exact ⟨a, w', rfl, h⟩

theorem perform_bind_pure (act : Act κ α) (f : α → β) (w : World κ) :
    (act >>= fun a => pure (f a)).perform w = ((act.perform w).1.map f, (act.perform w).2) := by
  rw [perform_bind]
  rcases act.perform w with ⟨_ | a, w'⟩ <;> rfl

theorem perform_modify (f : World κ → World κ) (w : World κ) :
    (modify f : Act κ Unit).perform w = (.ok (), f w) := rfl

theorem perform_get_bind (f : World κ → Act κ α) (w : World κ) :
    ((get : Act κ (World κ)) >>= f).perform w = (f w).perform w := rfl

theorem perform_query (f : World κ → Except Fault α) (w : World κ) :
    (query f).perform w = (f w, w) := by
  rw [query, perform_get_bind]
  cases f w <;> rfl

theorem perform_noteLookups (d : Ref Duration) (count : Nat) (w : World κ) :
    (noteLookups d count).perform w = (.ok (), w.looked d count) := by
  rw [noteLookups, perform_modify, World.looked]
  split <;> simp

/-- Whether an action keeps what holds of the world, whatever becomes of it. -/
def Keeps (P : World κ → Prop) (act : Act κ α) : Prop :=
  ∀ w, P w → P (act.perform w).2

namespace Keeps

variable {P : World κ → Prop}

theorem get_bind {f : World κ → Act κ α} (h : ∀ w, P w → P ((f w).perform w).2) :
    Keeps P ((get : Act κ (World κ)) >>= f) :=
  h

theorem bind {act : Act κ α} {f : α → Act κ β} (h : Keeps P act) (hf : ∀ a, Keeps P (f a)) :
    Keeps P (act >>= f) := by
  intro w hw
  have hact := h w hw
  rw [perform_bind]
  rcases hrun : act.perform w with ⟨_ | a, v⟩ <;> rw [hrun] at hact
  · exact hact
  · exact hf a v hact

theorem forM {f : α → Act κ Unit} {xs : List α} (hf : ∀ a ∈ xs, Keeps P (f a)) :
    Keeps P (xs.forM f) := by
  induction xs with
  | nil => exact fun _ hw => hw
  | cons a rest ih =>
    rw [List.forall_mem_cons] at hf
    rw [List.forM_eq_forM, List.forM_cons]
    exact hf.1.bind fun _ => ih hf.2

end Keeps

variable (d : Ref Duration) (w : World κ)

theorem perform_length : (length d).perform w = (.ok (w.length d), w.looked d 1) := by
  rw [length, perform_bind_ok _ (perform_noteLookups d 1 w)]
  rfl

theorem perform_phase :
    (phase d).perform w = (.ok (w.phase d), w.looked d (w.lookups d)) := by
  rw [phase, perform_get_bind, perform_bind_ok _ (perform_noteLookups d _ w)]
  rfl

theorem perform_progress :
    (progress d).perform w = (w.progress d, w.looked d (w.lookups d)) := by
  rw [progress, perform_get_bind, perform_bind_ok _ (perform_noteLookups d _ w), perform_query]
  rfl

theorem perform_value (r : Ref Transition) :
    (value r).perform w =
      (w.value r, w.looked (w.transitions.get r).duration
        (w.lookups (w.transitions.get r).duration)) := by
  rw [value, perform_get_bind, perform_bind_pure, perform_progress]
  congr 1

theorem perform_start :
    (start d).perform w = (.ok (), w.withTimer d (·.start (w.nowOf d))) := rfl

theorem perform_reverse :
    (reverse d).perform w =
      (.ok (), (w.looked d 1).withTimer d (·.reverse (w.nowOf d) (w.length d))) := by
  rw [reverse, perform_bind_ok _ (perform_length d w)]
  rfl

theorem perform_consume :
    (consume d).perform w =
      (.ok (w.due d),
        if w.due d then (w.looked d (w.lookups d)).withTimer d (·.consumed)
        else w.looked d (w.lookups d)) := by
  rw [consume, perform_get_bind, perform_bind_ok _ (perform_noteLookups d _ w), perform_get_bind]
  change (if w.due d = true then _ else _ : Act κ Bool).perform _ = _
  by_cases h : w.due d = true
  · rw [if_pos h, if_pos h, h]
    rfl
  · rw [if_neg h, if_neg h, Bool.eq_false_iff.mpr h]
    rfl

theorem perform_durationText :
    (durationText d).perform w = (w.durationText d, w.looked d (w.lookups d + 1)) := by
  rw [durationText, perform_get_bind, perform_bind_ok _ (perform_noteLookups d _ w), perform_query]
  rfl

theorem perform_advance (r : Ref ManualClock) (ms : Int) :
    (advance r ms).perform w =
      if ms < 0 then (.error .clockBackwards, w)
      else
        (.ok ((w.clocks.get r).now + ms),
          { w with clocks := w.clocks.set r ⟨(w.clocks.get r).now + ms⟩ }) := by
  unfold advance
  split <;> rfl

theorem perform_setLengthText (r : Ref (Setting Int)) (text : String) :
    (setLengthText r text).perform w =
      match Text.Whole.read? text with
      | .ok (some n) => (.ok true, { w with lengths := w.lengths.modify r (·.set n) })
      | .ok none =>
        (.ok false,
          { w with journal := w.journal ++ [.noted (.invalidValue text (w.lengths.get r).name)] })
      | .error fault => (.error fault, w) := by
  rw [setLengthText, perform_bind, perform_query]
  rcases Text.Whole.read? text with _ | _ | n <;> rfl

theorem perform_setDescriptionText (r : Ref (Setting Description)) (text : String) :
    (setDescriptionText r text).perform w =
      match Description.read? text with
      | .ok (some a) => (.ok true, { w with descriptions := w.descriptions.modify r (·.set a) })
      | .ok none =>
        (.ok false,
          { w with
            journal := w.journal ++ [.noted (.invalidValue text (w.descriptions.get r).name)] })
      | .error fault => (.error fault, w) := by
  rw [setDescriptionText, perform_bind, perform_query]
  rcases Description.read? text with _ | _ | a <;> rfl

end Act

end Tween
