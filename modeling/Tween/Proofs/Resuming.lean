import Tween.Proofs.Tick

namespace Tween

variable {κ : Type}

namespace World

variable {w w' : World κ} {s : Ref System} {policy : Policy} {p : Ref Duration → Float}
  {ds : List (Ref Duration)}

theorem Settled.looked (w : World κ) (s : Ref System) (policy : Policy) (p : Ref Duration → Float)
    (d : Ref Duration) (count : Nat) : w.Settled (w.looked d count) s policy p [] where
  emits := by
    have := (Settled.nil w s policy p).emits.trans (Emits.looked w d count)
    rwa [List.append_nil, List.append_nil] at this
  durations := (Settled.nil w s policy p).durations
  relisted := (Settled.nil w s policy p).relisted

theorem Settled.reading (h : w.Settled w' s policy p ds) : w'.reading = w.reading := by
  funext q
  rw [World.reading, (h.emits.timing (h.sameTiming q)).1, World.reading]

end World

namespace Act

open World

variable {s : Ref System} {policy : Policy}

theorem perform_settle_error (w : World κ) (report : Ref Binding → Act κ Unit) {d : Ref Duration}
    {fault : Fault} (hne : w.listedOf s d ≠ []) (hd : w.progress d = .error fault) :
    (settle s report ⟨d, w.listedOf s d⟩).perform w =
      (.error fault, w.looked d (w.lookups d)) := by
  obtain ⟨b, rest, hlist⟩ := List.exists_cons_of_ne_nil hne
  have hb : w.durationOf b = d := by
    have hmem : b ∈ w.listedOf s d := hlist ▸ List.mem_cons_self
    exact of_decide_eq_true (List.mem_filter.mp hmem).2
  have hupdate := perform_update w b
  rw [hb, hd] at hupdate
  have hwrites : ((b :: rest).forM update).perform w = (.error fault, w.looked d (w.lookups d)) := by
    rw [List.forM_eq_forM, List.forM_cons, perform_bind, hupdate]
  rw [settle, hlist, perform_bind, hwrites]

/-- Where settling several durations fails, those before the one that fails are settled. By induction
on the durations: one that does not fail is settled, and the rest goes on from there. -/
theorem settled_of_error (w : World κ) (hq : policy.isQuiet = true) {ds : List (Ref Duration)}
    (hds : ds.Nodup) (hne : ∀ d ∈ ds, w.listedOf s d ≠ []) {fault : Fault} {w' : World κ}
    (h : ((w.groupsOf s ds).forM (settle s (follow s policy))).perform w = (.error fault, w')) :
    ∃ before d later, ds = before ++ d :: later ∧ (∀ q ∈ before, (w.progress q).isOk = true) ∧
      w.progress d = .error fault ∧ w.Settled w' s policy w.reading before := by
  induction ds generalizing w with
  | nil => cases h
  | cons d rest ih =>
    rw [List.nodup_cons] at hds
    rw [List.forall_mem_cons] at hne
    have hgroups : w.groupsOf s (d :: rest) = ⟨d, w.listedOf s d⟩ :: w.groupsOf s rest := rfl
    rw [hgroups, List.forM_eq_forM, List.forM_cons] at h
    cases hd : w.progress d with
    | error cause =>
      rw [perform_bind, perform_settle_error w _ hne.1 hd] at h
      cases h
      exact ⟨[], d, rest, rfl, List.forall_mem_nil _, hd, .looked w s policy _ _ _⟩
    | ok x =>
      have hok : (w.progress d).isOk = true := by rw [hd]; rfl
      obtain ⟨w₁, hfirst, hsettled⟩ := settled_settle (s := s) (p := w.reading) w hq d
        fun b hb => progress_eq_reading (by rwa [of_decide_eq_true (List.mem_filter.mp hb).2])
      have hother := not_mem_singleton_of_mem hds.1
      rw [perform_bind_ok _ hfirst, ← hsettled.passed.groupsOf hother] at h
      have hne' : ∀ q ∈ rest, w₁.listedOf s q ≠ [] := by
        intro q hmem
        rw [hsettled.passed.listedOf q (hother q hmem)]
        exact hne.2 q hmem
      obtain ⟨before, e, later, hrest, hbefore, he, hsettled'⟩ := ih w₁ hds.2 hne' h
      have hprogress : ∀ q, w₁.progress q = w.progress q := fun q =>
        (hsettled.emits.timing (hsettled.sameTiming q)).1
      simp only [hprogress, hsettled.reading] at hbefore he hsettled'
      refine ⟨d :: before, e, later, by rw [hrest, List.cons_append], ?_, he, ?_⟩
      · rw [List.forall_mem_cons]
        exact ⟨hok, hbefore⟩
      · apply hsettled.cons _ hsettled'
        intro hmem
        apply hds.1
        rw [hrest]
        exact List.mem_append_left _ hmem

end Act

namespace World

variable {w w' : World κ} {s : Ref System}

/-- In `u` a system finds its list as in `w`, and the durations of its bindings with their timing
states, their lengths and the readings of their clocks. Their easings may be others. -/
structure Matches (w u : World κ) (s : Ref System) : Prop where
  system : u.systems.get s = w.systems.get s
  durationOf : ∀ b ∈ w.listed s, u.durationOf b = w.durationOf b
  timer : ∀ b ∈ w.listed s, u.timer (w.durationOf b) = w.timer (w.durationOf b)
  nowOf : ∀ b ∈ w.listed s, u.nowOf (w.durationOf b) = w.nowOf (w.durationOf b)
  length : ∀ b ∈ w.listed s, u.length (w.durationOf b) = w.length (w.durationOf b)

theorem Matches.listed {u : World κ} (h : w.Matches u s) : u.listed s = w.listed s := by
  rw [World.listed, h.system, World.listed]

theorem Matches.phase {u : World κ} (h : w.Matches u s) {b : Ref Binding} (hb : b ∈ w.listed s) :
    u.phase (u.durationOf b) = w.phase (w.durationOf b) := by
  rw [World.phase, h.durationOf b hb, h.timer b hb, h.nowOf b hb, h.length b hb, World.phase]

theorem Matches.tickOrder {u : World κ} (h : w.Matches u s) : u.tickOrder s = w.tickOrder s := by
  rw [World.tickOrder, h.listed, byFirst_congr _ _ h.durationOf, World.tickOrder]

/-- A tick that fails has settled the durations before the one that fails. -/
theorem settled_of_tick_error (hq : (w.systems.get s).policy.isQuiet = true) {fault : Fault}
    (h : (Act.tick s).perform w = (.error fault, w')) :
    ∃ before d later, ((w.listed s).map w.durationOf).eraseDups = before ++ d :: later ∧
      (∀ q ∈ before, (w.progress q).isOk = true) ∧ w.progress d = .error fault ∧
      w.Settled w' s (w.systems.get s).policy w.reading before :=
  Act.settled_of_error w hq (nodup_eraseDups _) (listedOf_ne_nil w s) h

/-- Settling some durations changes where they stand only if they are completed. -/
theorem Settled.phase {policy : Policy} {p : Ref Duration → Float} {ds : List (Ref Duration)}
    (h : w.Settled w' s policy p ds) {q : Ref Duration} (hq : q ∉ ds ∨ w.phase q = .running) :
    w'.phase q = w.phase q := by
  have hfinished := (h.emits.timing (h.sameTiming q)).2
  rcases hq with hq | hrunning
  · have htimer : w'.timer q = w.timer q := by
      rw [timer, h.durations, if_neg fun hd => hq hd.1, timer]
    change (if !w'.finished q then Phase.running else if (w'.timer q).pending then _ else _) = _
    rw [hfinished, htimer]
    rfl
  · rw [hrunning, phase_eq_running_iff, hfinished, ← phase_eq_running_iff, hrunning]

theorem Matches.reports {u : World κ} (h : w.Matches u s)
    (hq : (w.systems.get s).policy.isQuiet = true)
    (hok : (u.step (.onSystem s .tick)).1.isOk = true) :
    (u.step (.onSystem s .tick)).2.reports = u.reports ++ (w.systems.get s).policy.kept
      ((w.tickOrder s).filter fun b => w.phase (w.durationOf b) = .completed) := by
  have hquiet : (u.systems.get s).policy.isQuiet = true := by rw [h.system, hq]
  obtain ⟨-, hticked⟩ := ticked_of_isOk u s hquiet hok
  rw [hticked.emits.reports, h.system, h.tickOrder]
  congr 2
  apply List.filter_congr
  intro b hb
  rw [h.phase ((perm_tickOrder w s).mem_iff.mp hb)]

theorem Settled.tickOrder {policy : Policy} {p : Ref Duration → Float} {ds : List (Ref Duration)}
    (h : w.Settled w' s policy p ds) : w'.tickOrder s =
      (w.tickOrder s).filter fun b => !(w.durationOf b ∈ ds && w.finished (w.durationOf b)) := by
  rw [World.tickOrder, h.emits.durationOf, h.relisted.listed, if_pos rfl, World.tickOrder]
  exact byFirst_filter w.durationOf (w.listed s) fun q => !(q ∈ ds && w.finished q)

/-- What is completed after some durations have been settled belongs to the others. -/
theorem Settled.filter_completed {policy : Policy} {p : Ref Duration → Float}
    {ds : List (Ref Duration)} (h : w.Settled w' s policy p ds) {front rest : List (Ref Binding)}
    (horder : w.tickOrder s = front ++ rest) (hfront : ∀ b ∈ front, w.durationOf b ∈ ds)
    (hrest : ∀ b ∈ rest, w.durationOf b ∉ ds) :
    (w'.tickOrder s).filter (fun b => w'.phase (w'.durationOf b) = .completed) =
      rest.filter fun b => w.phase (w.durationOf b) = .completed := by
  rw [h.tickOrder, h.emits.durationOf, horder, List.filter_append, List.filter_append,
    List.filter_filter, List.filter_filter]
  have hnone : front.filter (fun b => decide (w'.phase (w.durationOf b) = .completed) &&
      !(decide (w.durationOf b ∈ ds) && w.finished (w.durationOf b))) = [] := by
    apply List.filter_eq_nil_iff.mpr
    intro b hb
    rw [decide_eq_true (hfront b hb), Bool.true_and]
    -- What stays listed here runs, and still does.
    cases hf : w.finished (w.durationOf b)
    · have hrunning := (phase_eq_running_iff w (w.durationOf b)).mpr hf
      rw [h.phase (.inr hrunning), hrunning]
      decide
    · simp
  rw [hnone, List.nil_append]
  apply List.filter_congr
  intro b hb
  rw [h.phase (.inl (hrest b hb)), decide_eq_false (hrest b hb)]
  simp

theorem durationOf_of_mem_flatMap {ds : List (Ref Duration)} {b : Ref Binding}
    (h : b ∈ ds.flatMap (w.listedOf s)) : w.durationOf b ∈ ds := by
  obtain ⟨d, hd, hb⟩ := List.mem_flatMap.mp h
  rwa [of_decide_eq_true (List.mem_filter.mp hb).2]

/-- The writes of a tick, where it comes to a duration: those of the durations before, and what begins
with the first binding of this one. -/
theorem tickOrder_split {before later : List (Ref Duration)} {d : Ref Duration}
    (h : ((w.listed s).map w.durationOf).eraseDups = before ++ d :: later) :
    ∃ b rest, w.tickOrder s = before.flatMap (w.listedOf s) ++ b :: rest ∧ w.durationOf b = d ∧
      ∀ c ∈ b :: rest, w.durationOf c ∈ d :: later := by
  have hne := listedOf_ne_nil w s d (by simp [h])
  obtain ⟨b, others, hb⟩ := List.exists_cons_of_ne_nil hne
  have hmem : b ∈ w.listedOf s d := hb ▸ List.mem_cons_self
  have hrest : (d :: later).flatMap (w.listedOf s) =
      b :: (others ++ later.flatMap (w.listedOf s)) := by
    rw [List.flatMap_cons, hb, List.cons_append]
  refine ⟨b, others ++ later.flatMap (w.listedOf s), ?_, ?_, fun c hc => ?_⟩
  · rw [← flatMap_listedOf_eraseDups, h, List.flatMap_append, hrest]
  · exact of_decide_eq_true (List.mem_filter.mp hmem).2
  · apply durationOf_of_mem_flatMap
    rwa [hrest]

/-- A tick of a quiet system that fails has settled the durations before the one whose progress is a
fault, and nothing else. A tick that follows, with the cause removed, reports exactly what was still
to be reported. -/
theorem step_tick_error (w : World κ) (s : Ref System)
    (hq : (w.systems.get s).policy.isQuiet = true) (fault : Fault)
    (h : (w.step (.onSystem s .tick)).1 = .error fault) :
    let w' := (w.step (.onSystem s .tick)).2
    let strokes (bs : List (Ref Binding)) := bs.map fun c => w.stroke c (w.reading (w.durationOf c))
    let completed (bs : List (Ref Binding)) :=
      (w.systems.get s).policy.kept (bs.filter fun c => w.phase (w.durationOf c) = .completed)
    ∃ before d later front b rest,
      ((w.listed s).map w.durationOf).eraseDups = before ++ d :: later ∧
      w.tickOrder s = front ++ b :: rest ∧ front = before.flatMap (w.listedOf s) ∧
      w.durationOf b = d ∧ (∀ q ∈ before, (w.progress q).isOk = true) ∧
      w.progress d = .error fault ∧
      w'.writes = w.writes ++ strokes front ∧ w'.targets = paint w.targets (strokes front) ∧
      w'.reports = w.reports ++ completed front ∧
      w.Relisted w' s ((w.listed s).filter fun c =>
        w.durationOf c ∉ before ∨ w.phase (w.durationOf c) = .running) ∧
      (∀ q, w'.durations.get q =
        if q ∈ before ∧ w.phase q = .completed then
          { w.durations.get q with timer := (w.timer q).consumed }
        else w.durations.get q) ∧
      w' = { w with
        targets := w'.targets, durations := w'.durations, systems := w'.systems
        journal := w'.journal } ∧
      (∀ q ∈ d :: later, w'.phase q = w.phase q) ∧
      (∀ v, w.Matches v s → (v.step (.onSystem s .tick)).1.isOk = true →
        (v.step (.onSystem s .tick)).2.reports =
          v.reports ++ (completed front ++ completed (b :: rest))) ∧
      ∀ u, w'.Matches u s → (u.step (.onSystem s .tick)).1.isOk = true →
        (u.step (.onSystem s .tick)).2.reports = u.reports ++ completed (b :: rest) := by
  intro w' strokes completed
  have htick : (Act.tick s).perform w = (.error fault, w') := by
    simp only [w', step_onSystem_tick] at h ⊢
    cases hr : ((Act.tick s).perform w).1 with
    | ok =>
      rw [hr] at h
      cases h
    | error cause =>
      rw [hr] at h
      cases h
      exact Prod.ext hr rfl
  obtain ⟨before, d, later, hvisited, hbefore, hd, hsettled⟩ := settled_of_tick_error hq htick
  obtain ⟨b, rest, horder, hb, hrest⟩ := tickOrder_split hvisited
  have hnodup := nodup_eraseDups ((w.listed s).map w.durationOf)
  rw [hvisited, List.nodup_append] at hnodup
  have hlater : ∀ q ∈ d :: later, q ∉ before := fun q hq hmem => hnodup.2.2 q hmem q hq rfl
  -- What was not settled is what a later tick finds, and it completes there as it would here.
  have hcompleted := hsettled.filter_completed horder (fun c => durationOf_of_mem_flatMap)
    fun c hc => hlater _ (hrest c hc)
  refine ⟨before, d, later, _, b, rest, hvisited, horder, rfl, hb, hbefore, hd,
    hsettled.emits.writes, hsettled.emits.targets, hsettled.emits.reports, ?_,
    fun q => (hsettled.durations q).trans ?_, hsettled.emits.frame,
    fun q hq => hsettled.phase (.inl (hlater q hq)), fun v hv hok => ?_, fun u hu hok => ?_⟩
  · have := hsettled.relisted
    rwa [List.filter_congr fun c _ => ?_] at this
    rw [Bool.eq_iff_iff, decide_eq_true_iff, phase_eq_running_iff]
    simp only [Bool.not_eq_true', Bool.and_eq_false_iff, decide_eq_false_iff_not]
  · exact if_congr (and_congr Iff.rfl decide_eq_true_iff) rfl rfl
  · rw [hv.reports hq hok, horder, List.filter_append, Policy.kept_append]
  · have hpolicy : (w'.systems.get s).policy = (w.systems.get s).policy := by
      rw [hsettled.relisted s, if_pos rfl]
    rw [hu.reports (by rw [hpolicy]; exact hq) hok, hpolicy, hcompleted]

/-- A world in which a system lists a binding of one duration twice, and one of another in between,
which is eased by the reciprocal. Both have passed, and the second one is back at zero. -/
def stuck : World Unit :=
  World.empty.after [.newClock 0, .newLength (.whole "length" 100),
    .newDescription (.ofDescription "fade" ⟨100, "reciprocal", .reciprocal⟩),
    .newDuration { length := some ⟨0⟩, smoothing := .named .linear, clock := .manual ⟨0⟩ },
    .newDuration (.ofDescription ⟨0⟩ (.manual ⟨0⟩)), .newTransition ⟨0⟩ 0.0 1.0,
    .newTransition ⟨1⟩ 0.0 1.0, .newTarget, .newBinding ⟨0⟩ "x" ⟨0⟩, .newBinding ⟨0⟩ "y" ⟨1⟩,
    .newSystem .record, .onSystem ⟨0⟩ (.add ⟨0⟩), .onSystem ⟨0⟩ (.add ⟨1⟩),
    .onSystem ⟨0⟩ (.add ⟨0⟩), .onDuration ⟨1⟩ .reverse, .onDuration ⟨0⟩ .start,
    .onDuration ⟨1⟩ .start, .onClock ⟨0⟩ (.advance 100)]

def mended (w : World Unit) : World Unit :=
  (w.step (.onDescription ⟨0⟩ (.set ⟨100, "linear", .named .linear⟩))).2

theorem matches_mended (w : World Unit) (s : Ref System) (h : ∀ b ∈ w.listed s,
    w.mended.length (w.durationOf b) = w.length (w.durationOf b)) : w.Matches w.mended s :=
  ⟨rfl, fun _ _ => rfl, fun _ _ => rfl, fun _ _ => rfl, h⟩

/-- Zero has no reciprocal; once the easing is another, the second binding is reported after all. -/
theorem step_tick_error_stuck :
    let w' := (stuck.step (.onSystem ⟨0⟩ .tick)).2
    (stuck.step (.onSystem ⟨0⟩ .tick)).1 = .error .divisionByZero ∧ w'.reports = [⟨0⟩, ⟨0⟩] ∧
      w'.listed ⟨0⟩ = [⟨1⟩] ∧
      (w'.mended.step (.onSystem ⟨0⟩ .tick)).2.reports = w'.mended.reports ++ [⟨1⟩] := by
  have hfails : (stuck.step (.onSystem ⟨0⟩ .tick)).1 = .error .divisionByZero := rfl
  have hreported : (stuck.step (.onSystem ⟨0⟩ .tick)).2.reports = [⟨0⟩, ⟨0⟩] := by decide
  have hlisted : (stuck.step (.onSystem ⟨0⟩ .tick)).2.listed ⟨0⟩ = [⟨1⟩] := by decide
  have hnone : stuck.reports = [] := by decide
  have hall : (stuck.mended.step (.onSystem ⟨0⟩ .tick)).2.reports = [⟨0⟩, ⟨0⟩] ++ [⟨1⟩] := by
    decide +kernel
  have hnone' : stuck.mended.reports = [] := by decide
  obtain ⟨before, d, later, front, b, rest, -, -, -, -, -, -, -, -, hreports, -, -, -, -, hmended,
    hnext⟩ := step_tick_error stuck ⟨0⟩ (by decide) .divisionByZero hfails
  have hrest := hnext _ (matches_mended _ _ (by decide +kernel)) (by decide +kernel)
  have hboth := hmended _ (matches_mended _ _ (by decide +kernel)) (by decide +kernel)
  rw [hreported, hnone, List.nil_append] at hreports
  rw [hall, hnone', List.nil_append, ← hreports] at hboth
  rw [← List.append_cancel_left hboth] at hrest
  exact ⟨hfails, hreported, hlisted, hrest⟩

end World

end Tween
