import Tween.Proofs.Emission
import Tween.Proofs.Grouping

namespace Tween

variable {κ : Type}

namespace Act

open World

variable (w : World κ)

/-- The current value of a binding is written, unless its progress is a fault. -/
theorem perform_update (b : Ref Binding) :
    (update b).perform w =
      match w.progress (w.durationOf b) with
      | .ok p => (.ok (), w.updated b p)
      | .error fault => (.error fault, w.looked (w.durationOf b) (w.lookups (w.durationOf b))) := by
  rw [update, perform_get_bind, perform_bind, perform_value, World.value, World.durationOf]
  cases w.progress (w.transitions.get (w.bindings.get b).transition).duration <;> rfl

theorem perform_forM_update {p : Ref Duration → Float} (bs : List (Ref Binding))
    (hp : ∀ b ∈ bs, w.progress (w.durationOf b) = .ok (p (w.durationOf b))) :
    ∃ w', (bs.forM update).perform w = (.ok (), w') ∧
      w.Emits w' (bs.map fun b => w.stroke b (p (w.durationOf b))) [] ∧
      w'.durations = w.durations ∧ w'.systems = w.systems := by
  induction bs generalizing w with
  | nil => exact ⟨w, rfl, .refl w, rfl, rfl⟩
  | cons b rest ih =>
    rw [List.forall_mem_cons] at hp
    have hupdate := perform_update w b
    rw [hp.1] at hupdate
    have hfirst := Emits.updated w b (p (w.durationOf b))
    obtain ⟨w', hrest, hemits, hdurations, hsystems⟩ := ih _ fun c hc => by
      rw [hfirst.durationOf, (hfirst.timing (.of_eq rfl)).1]
      exact hp.2 c hc
    refine ⟨w', ?_, ?_, hdurations, hsystems⟩
    · rw [List.forM_eq_forM, List.forM_cons, perform_bind_ok _ hupdate]
      exact hrest
    · have := hfirst.trans hemits
      rwa [hfirst.durationOf, hfirst.stroke] at this

theorem perform_setMembers (s : Ref System) (members : List (Ref Binding)) :
    ∃ w', (setMembers s members).perform w = (.ok (), w') ∧
      w' = { w with systems := w'.systems } ∧ w.Relisted w' s members := by
  refine ⟨_, rfl, rfl, fun r => ?_⟩
  change (w.systems.set s _).get r = _
  rw [Store.get_set]
  split
  · next h => rw [h]
  · rfl

theorem perform_follow (s : Ref System) {policy : Policy} (hq : policy.isQuiet = true)
    (b : Ref Binding) :
    ∃ w', (follow s policy b).perform w = (.ok (), w') ∧ w.Emits w' [] (policy.kept [b]) ∧
      w'.durations = w.durations ∧ w'.systems = w.systems := by
  cases policy with
  | ignore => exact ⟨w, rfl, .refl w, rfl, rfl⟩
  | record =>
    refine ⟨_, rfl, ⟨rfl, rfl, ?_, ?_⟩, rfl, rfl⟩
    · simp [World.writes]
    · simp [World.reports, Policy.kept]
  | _ => cases hq

theorem perform_delist {s : Ref System} {b : Ref Binding} (hb : b ∈ w.listed s) :
    ∃ w', (delist s b).perform w = (.ok (), w') ∧ w' = { w with systems := w'.systems } ∧
      w.Relisted w' s ((w.listed s).erase b) := by
  obtain ⟨w', hset, hframe, hlist⟩ := perform_setMembers w s ((w.listed s).erase b)
  refine ⟨w', ?_, hframe, hlist⟩
  rw [delist, perform_get_bind]
  change (if b ∈ w.listed s then _ else _ : Act κ Unit).perform w = _
  rw [if_pos hb]
  exact hset

/-- A listed binding leaves the list once, and is reported if its completion is due. -/
theorem perform_retire {s : Ref System} {policy : Policy} (hq : policy.isQuiet = true) (due : Bool)
    {b : Ref Binding} (hb : b ∈ w.listed s) :
    ∃ w', (retire s (follow s policy) due b).perform w = (.ok (), w') ∧
      w.Emits w' [] (policy.kept ([b].filter fun _ => due)) ∧ w'.durations = w.durations ∧
      w.Relisted w' s ((w.listed s).erase b) := by
  obtain ⟨w₁, hdelist, hframe, hlist⟩ := perform_delist w hb
  have hemits : w.Emits w₁ [] [] := (Emits.refl w).congr (by rw [hframe])
  rw [retire, perform_bind_ok _ hdelist]
  cases due with
  | false =>
    refine ⟨w₁, rfl, ?_, by rw [hframe], hlist⟩
    cases policy <;> exact hemits
  | true =>
    obtain ⟨w₂, hfollow, hreport, hdurations, hsystems⟩ := perform_follow w₁ s hq b
    refine ⟨w₂, hfollow, hemits.trans hreport, by rw [hdurations, hframe], ?_⟩
    intro r
    rw [hsystems]
    exact hlist r

theorem perform_forM_retire {s : Ref System} {policy : Policy} (hq : policy.isQuiet = true)
    (due : Bool) (inClass : Ref Binding → Bool) (bs : List (Ref Binding))
    (hbs : (w.listed s).filter inClass = bs) :
    ∃ w', (bs.forM (retire s (follow s policy) due)).perform w = (.ok (), w') ∧
      w.Emits w' [] (policy.kept (bs.filter fun _ => due)) ∧ w'.durations = w.durations ∧
      w.Relisted w' s ((w.listed s).filter (!inClass ·)) := by
  induction bs generalizing w with
  | nil =>
    have hall : (w.listed s).filter (!inClass ·) = w.listed s := by
      rw [List.filter_eq_self]
      intro b hb
      have := List.filter_eq_nil_iff.mp hbs b hb
      simpa using this
    refine ⟨w, rfl, ?_, rfl, ?_⟩
    · cases policy <;> exact .refl w
    · rw [hall]
      exact .refl w s
  | cons b rest ih =>
    -- The invariant: what is still to be taken off is the class as the list has it by now.
    obtain ⟨hb, hclass, hothers⟩ := erase_head_class hbs
    obtain ⟨w₁, hretire, hemits, hdurations, hlist⟩ := perform_retire w hq due hb
    have hlisted : w₁.listed s = (w.listed s).erase b := by rw [hlist.listed, if_pos rfl]
    obtain ⟨w₂, hrest, hemits', hdurations', hlist'⟩ := ih w₁ (by rw [hlisted, hclass])
    rw [hlisted, hothers] at hlist'
    refine ⟨w₂, ?_, ?_, hdurations'.trans hdurations, hlist.trans hlist'⟩
    · rw [List.forM_eq_forM, List.forM_cons, perform_bind_ok _ hretire]
      exact hrest
    · have := hemits.trans hemits'
      rwa [← Policy.kept_append, ← List.filter_append] at this

/-- What follows the writes of a group: it is taken off the list once its duration is finished. -/
theorem perform_settle (s : Ref System) (report : Ref Binding → Act κ Unit) {g : Group}
    {w₁ : World κ} (h : (g.members.forM update).perform w = (.ok (), w₁)) :
    (settle s report g).perform w =
      let w₂ := w₁.looked g.duration (w₁.lookups g.duration)
      if w₁.finished g.duration then
        (g.members.forM (retire s report (w₁.due g.duration))).perform
          ((consume g.duration).perform w₂).2
      else (.ok (), w₂) := by
  have hphase := w₁.phase_ne_running_iff g.duration
  rw [settle, perform_bind_ok _ h, perform_bind_ok _ (perform_phase g.duration w₁)]
  change (if w₁.phase g.duration ≠ .running then _ else _ : Act κ Unit).perform _ = _
  by_cases hf : w₁.finished g.duration = true
  · simp only [if_pos (hphase.mpr hf), if_pos hf]
    rw [perform_bind, perform_consume]
    rfl
  · simp only [if_neg (mt hphase.mp hf), if_neg hf]
    rfl

end Act

namespace World

def reading (w : World κ) (d : Ref Duration) : Float :=
  (w.progress d).toOption.getD 0.0

theorem progress_eq_reading {w : World κ} {d : Ref Duration} (h : (w.progress d).isOk = true) :
    w.progress d = .ok (w.reading d) := by
  unfold reading
  cases hd : w.progress d with
  | error fault =>
    rw [hd] at h
    cases h
  | ok x => rfl

def listedOf (w : World κ) (s : Ref System) (d : Ref Duration) : List (Ref Binding) :=
  (w.listed s).filter (w.durationOf · = d)

def groupsOf (w : World κ) (s : Ref System) (ds : List (Ref Duration)) : List Group :=
  ds.map fun d => ⟨d, w.listedOf s d⟩

theorem filter_listedOf (w : World κ) (s : Ref System) (d : Ref Duration)
    (f : Ref Duration → Bool) :
    (w.listedOf s d).filter (fun b => f (w.durationOf b)) = (w.listedOf s d).filter fun _ => f d := by
  apply List.filter_congr
  intro b hb
  rw [of_decide_eq_true (List.mem_filter.mp hb).2]

/-- The world `w'` is `w` once a system has written its bindings of some durations, whose progress is
`p`, and has changed nothing of any other duration. -/
structure Passed (w w' : World κ) (s : Ref System) (p : Ref Duration → Float)
    (ds : List (Ref Duration)) (reported : List (Ref Binding)) : Prop where
  emits : w.Emits w'
    ((ds.flatMap (w.listedOf s)).map fun b => w.stroke b (p (w.durationOf b))) reported
  durations : ∀ q, q ∉ ds → w'.durations.get q = w.durations.get q
  listedOf : ∀ q, q ∉ ds → w'.listedOf s q = w.listedOf s q

namespace Passed

variable {w w' : World κ} {s : Ref System} {p : Ref Duration → Float} {ds : List (Ref Duration)}
  {rs : List (Ref Binding)}

theorem timing (h : w.Passed w' s p ds rs) {q : Ref Duration} (hq : q ∉ ds) :
    w'.progress q = w.progress q ∧ w'.finished q = w.finished q :=
  h.emits.timing (.of_eq (h.durations q hq))

theorem due (h : w.Passed w' s p ds rs) {q : Ref Duration} (hq : q ∉ ds) :
    w'.due q = w.due q := by
  rw [due_eq, due_eq, (h.timing hq).2, timer, h.durations q hq]
  rfl

theorem groupsOf (h : w.Passed w' s p ds rs) {qs : List (Ref Duration)} (hqs : ∀ q ∈ qs, q ∉ ds) :
    w'.groupsOf s qs = w.groupsOf s qs :=
  List.map_congr_left fun q hq => by rw [h.listedOf q (hqs q hq)]

theorem flatMap_listedOf (h : w.Passed w' s p ds rs) {qs : List (Ref Duration)}
    (hqs : ∀ q ∈ qs, q ∉ ds) :
    qs.flatMap (w'.listedOf s) = qs.flatMap (w.listedOf s) ∧
      (qs.flatMap (w'.listedOf s)).filter (fun b => w'.due (w'.durationOf b)) =
        (qs.flatMap (w.listedOf s)).filter fun b => w.due (w.durationOf b) := by
  have hsame : qs.flatMap (w'.listedOf s) = qs.flatMap (w.listedOf s) :=
    List.flatMap_congr fun q hq => h.listedOf q (hqs q hq)
  refine ⟨hsame, ?_⟩
  rw [hsame, h.emits.durationOf]
  apply List.filter_congr
  intro b hb
  obtain ⟨q, hq, hb⟩ := List.mem_flatMap.mp hb
  rw [of_decide_eq_true (List.mem_filter.mp hb).2]
  exact h.due (hqs q hq)

theorem cons {w₁ w₂ : World κ} {d : Ref Duration} {qs : List (Ref Binding)} (hd : d ∉ ds)
    (h : w.Passed w₁ s p [d] rs) (h' : w₁.Passed w₂ s p ds qs) :
    w.Passed w₂ s p (d :: ds) (rs ++ qs) := by
  refine ⟨?_, fun q hq => ?_, fun q hq => ?_⟩
  · have := h.emits.trans h'.emits
    rw [(h.flatMap_listedOf (not_mem_singleton_of_mem hd)).1, h.emits.durationOf, h.emits.stroke,
      ← List.map_append] at this
    simpa only [List.flatMap_cons, List.flatMap_nil, List.append_nil] using this
  · rw [List.mem_cons, not_or] at hq
    rw [h'.durations q hq.2, h.durations q (mt List.mem_singleton.mp hq.1)]
  · rw [List.mem_cons, not_or] at hq
    rw [h'.listedOf q hq.2, h.listedOf q (mt List.mem_singleton.mp hq.1)]

end Passed

/-- The world `w'` is `w` once a system has settled its bindings of some durations, whose progress
is `p`. -/
structure Settled (w w' : World κ) (s : Ref System) (policy : Policy)
    (p : Ref Duration → Float) (ds : List (Ref Duration)) : Prop where
  emits : w.Emits w'
    ((ds.flatMap (w.listedOf s)).map fun b => w.stroke b (p (w.durationOf b)))
    (policy.kept ((ds.flatMap (w.listedOf s)).filter fun b => w.due (w.durationOf b)))
  durations (q : Ref Duration) :
    w'.durations.get q =
      if q ∈ ds ∧ w.due q = true then { w.durations.get q with timer := (w.timer q).consumed }
      else w.durations.get q
  relisted : w.Relisted w' s
    ((w.listed s).filter fun b => !(w.durationOf b ∈ ds && w.finished (w.durationOf b)))

namespace Settled

variable {w w' : World κ} {s : Ref System} {policy : Policy} {p : Ref Duration → Float}
  {ds : List (Ref Duration)}

theorem sameTiming (h : w.Settled w' s policy p ds) (q : Ref Duration) : w.SameTiming w' q :=
  .of_consumed (h.durations q)

/-- Settling one duration leaves the others with their timing states and their bindings. -/
theorem passed (h : w.Settled w' s policy p ds) : w.Passed w' s p ds
    (policy.kept ((ds.flatMap (w.listedOf s)).filter fun b => w.due (w.durationOf b))) where
  emits := h.emits
  durations q hq := (h.durations q).trans (if_neg fun hd => hq hd.1)
  listedOf q hq := by
    rw [World.listedOf, h.relisted.listed, if_pos rfl, h.emits.durationOf, List.filter_filter]
    apply List.filter_congr
    intro b _
    by_cases hb : w.durationOf b = q
    · simp [hb, hq]
    · simp [hb]

theorem nil (w : World κ) (s : Ref System) (policy : Policy) (p : Ref Duration → Float) :
    w.Settled w s policy p [] where
  emits := by cases policy <;> exact .refl w
  durations q := by rw [if_neg fun h => List.not_mem_nil h.1]
  relisted := by
    have h : (w.listed s).filter (fun b => !(decide (w.durationOf b ∈ ([] : List (Ref Duration))) &&
        w.finished (w.durationOf b))) = w.listed s := by simp
    rw [h]
    exact .refl w s

theorem cons {w₁ w₂ : World κ} {d : Ref Duration} (hd : d ∉ ds)
    (h : w.Settled w₁ s policy p [d]) (h' : w₁.Settled w₂ s policy p ds) :
    w.Settled w₂ s policy p (d :: ds) := by
  have hother := not_mem_singleton_of_mem hd
  refine ⟨?_, fun q => ?_, ?_⟩
  · have := (h.passed.cons hd h'.passed).emits
    rw [(h.passed.flatMap_listedOf hother).2, ← Policy.kept_append, ← List.filter_append] at this
    simpa only [List.flatMap_cons, List.flatMap_nil, List.append_nil] using this
  · rw [h'.durations]
    by_cases hq : q ∈ ds
    · have hsame := h.passed.durations q (hother q hq)
      rw [timer, hsame, h.passed.due (hother q hq)]
      simp only [hq, List.mem_cons, or_true, true_and]
      rfl
    · rw [if_neg fun hqd => hq hqd.1, h.durations]
      simp only [List.mem_cons, List.not_mem_nil, hq, or_false]
  · have hfinished : w₁.finished = w.finished :=
      funext fun q => (h.emits.timing (h.sameTiming q)).2
    have := h.relisted.trans h'.relisted
    rw [h.relisted.listed, if_pos rfl, List.filter_filter, h.emits.durationOf, hfinished] at this
    rw [List.filter_congr fun b _ => ?_] at this
    · exact this
    · by_cases hb : w.durationOf b = d <;> simp [hb, hd]

variable {d : Ref Duration}

theorem of_running (hf : w.finished d = false)
    (hemits : w.Emits w' ((w.listedOf s d).map fun b => w.stroke b (p (w.durationOf b))) [])
    (hdurations : ∀ q, w'.durations.get q = w.durations.get q) (hsystems : w'.systems = w.systems) :
    w.Settled w' s policy p [d] := by
  have hdue : w.due d = false := by
    rw [due_eq, hf]
    rfl
  refine ⟨?_, fun q => ?_, fun r => ?_⟩
  · have hnone : policy.kept ((w.listedOf s d).filter fun b => w.due (w.durationOf b)) = [] := by
      rw [filter_listedOf w s d w.due, hdue, List.filter_false]
      cases policy <;> rfl
    simpa only [List.flatMap_cons, List.flatMap_nil, List.append_nil, hnone] using hemits
  · rw [hdurations, if_neg]
    rintro ⟨hq, hd⟩
    rw [List.mem_singleton.mp hq, hdue] at hd
    cases hd
  · rw [List.filter_eq_self.mpr fun b _ => ?_, hsystems]
    · exact Relisted.refl w s r
    · by_cases hb : w.durationOf b = d <;> simp [hb, hf]

/-- A duration that does not run is settled by taking its bindings off the list, too. -/
theorem of_finished (hf : w.finished d = true)
    (hemits : w.Emits w' ((w.listedOf s d).map fun b => w.stroke b (p (w.durationOf b)))
      (policy.kept ((w.listedOf s d).filter fun _ => w.due d)))
    (hdurations : ∀ q, w'.durations.get q =
      if d = q ∧ w.due d = true then { w.durations.get q with timer := (w.timer q).consumed }
      else w.durations.get q)
    (hlist : w.Relisted w' s ((w.listed s).filter fun b => !decide (w.durationOf b = d))) :
    w.Settled w' s policy p [d] := by
  refine ⟨?_, fun q => ?_, ?_⟩
  · rw [← filter_listedOf w s d w.due] at hemits
    simpa only [List.flatMap_cons, List.flatMap_nil, List.append_nil] using hemits
  · rw [hdurations]
    by_cases hq : d = q
    · subst hq
      simp only [List.mem_singleton, true_and]
    · rw [if_neg fun h => hq h.1, if_neg fun h => hq (List.mem_singleton.mp h.1).symm]
  · rw [List.filter_congr fun b _ => ?_]
    · exact hlist
    · by_cases hb : w.durationOf b = d <;> simp [hb, hf]

end Settled

end World

namespace Act

open World

variable {s : Ref System} {policy : Policy} {p : Ref Duration → Float}

/-- Settling begins the same way for every system: the bindings are written, and a completion that is
due is consumed before the list is walked, so the walk finds one answer for all of them. -/
theorem perform_settle_of_progress (w : World κ) {d : Ref Duration} {bs : List (Ref Binding)}
    (hp : ∀ b ∈ bs, w.progress (w.durationOf b) = .ok (p (w.durationOf b))) :
    ∃ w₁, w.Emits w₁ (bs.map fun b => w.stroke b (p (w.durationOf b))) [] ∧
      w₁.systems = w.systems ∧
      (∀ q, w₁.durations.get q =
        if d = q ∧ w.due d = true then { w.durations.get q with timer := (w.timer q).consumed }
        else w.durations.get q) ∧
      ∀ s report, (settle s report ⟨d, bs⟩).perform w =
        if w.finished d then (bs.forM (retire s report (w.due d))).perform w₁
        else (.ok (), w₁) := by
  obtain ⟨w₀, hupdate, hemits, hdurations, hsystems⟩ := perform_forM_update w _ hp
  have hfinished : w₀.finished d = w.finished d :=
    (hemits.timing (.of_eq (by rw [hdurations]))).2
  have hdue : w₀.due d = w.due d := by
    rw [due_eq, due_eq, hfinished, timer, timer, hdurations]
  have hrun : ∀ s report, _ := fun s report =>
    perform_settle w s report (g := ⟨d, bs⟩) hupdate
  simp only [hfinished, hdue] at hrun
  cases hf : w.finished d with
  | false =>
    -- What runs is only looked at.
    have hnone : w.due d = false := by
      rw [due_eq, hf]
      rfl
    refine ⟨w₀.looked d (w₀.lookups d), ?_, hsystems, fun q => ?_, fun s report => ?_⟩
    · have := hemits.trans (Emits.looked w₀ d (w₀.lookups d))
      rwa [List.append_nil, List.append_nil] at this
    · rw [hnone, if_neg (by simp)]
      exact congrArg (·.get q) hdurations
    · rw [hrun, hf]
      rfl
  | true =>
    -- What has finished is consumed before anything is taken off the list.
    have hretimed := (retimed_consume (w₀.looked d (w₀.lookups d)) d).of_looked
    generalize ((consume d).perform (w₀.looked d (w₀.lookups d))).2 = w₁ at hrun hretimed
    refine ⟨w₁, ?_, by rw [hretimed.frame, ← hsystems], fun q => ?_, fun s report => ?_⟩
    · have := hemits.trans hretimed.emits
      rwa [List.append_nil, List.append_nil] at this
    · rw [hretimed.durations, hdurations]
      change (if d = q then { w.durations.get q with
        timer := if w₀.due d = true then (w₀.timer d).consumed else w₀.timer d } else _) = _
      rw [hdue, timer, hdurations]
      by_cases hq : d = q
      · subst hq
        simp only [true_and, if_true]
        split <;> rfl
      · simp [hq]
    · rw [hrun, hf, if_pos rfl, if_pos rfl]

/-- Without a completion that is due, it does not matter who would be told. -/
theorem retire_of_not_due (report report' : Ref Binding → Act κ Unit) :
    retire s report false = retire s report' false :=
  rfl

theorem settle_of_not_due (w : World κ) {d : Ref Duration}
    {bs : List (Ref Binding)} (hp : ∀ b ∈ bs, w.progress (w.durationOf b) = .ok (p (w.durationOf b)))
    (hdue : w.due d = false) (report report' : Ref Binding → Act κ Unit) :
    (settle s report ⟨d, bs⟩).perform w = (settle s report' ⟨d, bs⟩).perform w := by
  obtain ⟨w₁, -, -, -, hrun⟩ := perform_settle_of_progress w hp
  rw [hrun, hrun, hdue, retire_of_not_due report report']

theorem settled_settle (w : World κ) (hq : policy.isQuiet = true) (d : Ref Duration)
    (hp : ∀ b ∈ w.listedOf s d, w.progress (w.durationOf b) = .ok (p (w.durationOf b))) :
    ∃ w', (settle s (follow s policy) ⟨d, w.listedOf s d⟩).perform w = (.ok (), w') ∧
      w.Settled w' s policy p [d] := by
  obtain ⟨w₁, hemits, hsystems, hdurations, hrun⟩ := perform_settle_of_progress w (d := d) hp
  rw [hrun]
  cases hf : w.finished d with
  | false =>
    have hdue : w.due d = false := by
      rw [due_eq, hf]
      rfl
    refine ⟨w₁, rfl, .of_running hf hemits (fun q => ?_) hsystems⟩
    rw [hdurations, hdue, if_neg (by simp)]
  | true =>
    obtain ⟨w₂, hretire, hemits₂, hdurations₂, hlist⟩ := perform_forM_retire w₁ hq (w.due d)
      (w.durationOf · = d) (w.listedOf s d) (by rw [World.listed, hsystems]; rfl)
    refine ⟨w₂, hretire, .of_finished hf ?_ (fun q => ?_) (fun r => ?_)⟩
    · have := hemits.trans hemits₂
      simpa only [List.append_nil, List.nil_append] using this
    · rw [hdurations₂, hdurations]
    · rw [hlist r, World.listed, hsystems]
      rfl

/-- What becomes of the bindings of one duration and adds up over others, becomes of those of several
durations. -/
theorem forM_settle_induction {report : Ref Binding → Act κ Unit}
    {R : World κ → World κ → List (Ref Duration) → Prop} (hnil : ∀ w, R w w [])
    (hcons : ∀ {w w₁ w₂ d ds}, d ∉ ds → R w w₁ [d] → R w₁ w₂ ds → R w w₂ (d :: ds))
    (hpassed : ∀ {w w' ds}, R w w' ds → ∃ rs, w.Passed w' s p ds rs)
    (hsettle : ∀ (w : World κ) {d}, w.listedOf s d ≠ [] →
      (∀ b ∈ w.listedOf s d, w.progress (w.durationOf b) = .ok (p (w.durationOf b))) →
      ∃ w', (settle s report ⟨d, w.listedOf s d⟩).perform w = (.ok (), w') ∧ R w w' [d])
    (w : World κ) {ds : List (Ref Duration)} (hds : ds.Nodup)
    (hne : ∀ d ∈ ds, w.listedOf s d ≠ [])
    (hp : ∀ d ∈ ds, ∀ b ∈ w.listedOf s d, w.progress (w.durationOf b) = .ok (p (w.durationOf b))) :
    ∃ w', ((w.groupsOf s ds).forM (settle s report)).perform w = (.ok (), w') ∧ R w w' ds := by
  induction ds generalizing w with
  | nil => exact ⟨w, rfl, hnil w⟩
  | cons d rest ih =>
    rw [List.nodup_cons] at hds
    rw [List.forall_mem_cons] at hp hne
    obtain ⟨w₁, hfirst, hone⟩ := hsettle w hne.1 hp.1
    obtain ⟨rs, hpass⟩ := hpassed hone
    -- The groups were formed before the first one was settled, and the others are still the same.
    have hother := not_mem_singleton_of_mem hds.1
    have hne' : ∀ q ∈ rest, w₁.listedOf s q ≠ [] := by
      intro q hq
      rw [hpass.listedOf q (hother q hq)]
      exact hne.2 q hq
    have hp' : ∀ q ∈ rest, ∀ b ∈ w₁.listedOf s q,
        w₁.progress (w₁.durationOf b) = .ok (p (w₁.durationOf b)) := by
      intro q hq b hb
      rw [hpass.listedOf q (hother q hq)] at hb
      have hof : w.durationOf b = q := of_decide_eq_true (List.mem_filter.mp hb).2
      rw [hpass.emits.durationOf, hof, (hpass.timing (hother q hq)).1, ← hof]
      exact hp.2 q hq b hb
    obtain ⟨w₂, hrest, hall⟩ := ih w₁ hds.2 hne' hp'
    rw [hpass.groupsOf hother] at hrest
    refine ⟨w₂, ?_, hcons hds.1 hone hall⟩
    rw [groupsOf, List.map_cons, List.forM_eq_forM, List.forM_cons, perform_bind_ok _ hfirst]
    exact hrest

theorem settled_forM_settle (w : World κ) (hq : policy.isQuiet = true) {ds : List (Ref Duration)}
    (hds : ds.Nodup) (hne : ∀ d ∈ ds, w.listedOf s d ≠ [])
    (hp : ∀ d ∈ ds, ∀ b ∈ w.listedOf s d, w.progress (w.durationOf b) = .ok (p (w.durationOf b))) :
    ∃ w', ((w.groupsOf s ds).forM (settle s (follow s policy))).perform w = (.ok (), w') ∧
      w.Settled w' s policy p ds :=
  forM_settle_induction (fun w => .nil w s policy p) (fun hd h h' => h.cons hd h')
    (fun h => ⟨_, h.passed⟩) (fun w d _ hp => settled_settle w hq d hp) w hds hne hp

theorem progress_of_forM_update (w : World κ) {bs : List (Ref Binding)}
    (h : ((bs.forM update).perform w).1 = .ok ()) :
    ∀ b ∈ bs, (w.progress (w.durationOf b)).isOk = true := by
  induction bs generalizing w with
  | nil => exact List.forall_mem_nil _
  | cons c rest ih =>
    rw [List.forM_eq_forM, List.forM_cons] at h
    obtain ⟨_, w₁, hfirst, hrest⟩ := perform_bind_inv h
    rw [perform_update] at hfirst
    rw [List.forall_mem_cons]
    cases hc : w.progress (w.durationOf c) with
    | error fault =>
      rw [hc] at hfirst
      cases hfirst
    | ok x =>
      rw [hc] at hfirst
      obtain rfl := (Prod.mk.inj hfirst).2
      have hemits := Emits.updated w c x
      refine ⟨rfl, fun b hb => ?_⟩
      have := ih _ hrest b hb
      rwa [hemits.durationOf, (hemits.timing (.of_eq rfl)).1] at this

theorem progress_of_settle (w : World κ) {report : Ref Binding → Act κ Unit} {g : Group}
    (h : ((settle s report g).perform w).1 = .ok ()) :
    ∀ b ∈ g.members, (w.progress (w.durationOf b)).isOk = true := by
  obtain ⟨_, w₁, hupdate, -⟩ := perform_bind_inv h
  exact progress_of_forM_update w (by rw [hupdate])

theorem progress_of_forM_settle (w : World κ) (hq : policy.isQuiet = true)
    {ds : List (Ref Duration)} (hds : ds.Nodup)
    (h : (((w.groupsOf s ds).forM (settle s (follow s policy))).perform w).1 = .ok ()) :
    ∀ d ∈ ds, ∀ b ∈ w.listedOf s d, (w.progress (w.durationOf b)).isOk = true := by
  induction ds generalizing w with
  | nil => exact List.forall_mem_nil _
  | cons d rest ih =>
    rw [List.nodup_cons] at hds
    rw [groupsOf, List.map_cons, List.forM_eq_forM, List.forM_cons] at h
    obtain ⟨_, w₁, hfirst, hrest⟩ := perform_bind_inv h
    have hp := progress_of_settle w (g := ⟨d, w.listedOf s d⟩) (by rw [hfirst])
    rw [List.forall_mem_cons]
    refine ⟨hp, fun q hmem b hb => ?_⟩
    -- The first group went through, so it was settled, and the rest goes on from there.
    obtain ⟨w₂, hsettle, hsettled⟩ := settled_settle (p := w.reading) w hq d
      fun b hb => progress_eq_reading (hp b hb)
    obtain rfl := (Prod.mk.inj (hfirst.symm.trans hsettle)).2
    have hother := not_mem_singleton_of_mem hds.1
    have hlater := ih w₁ hds.2 (by rw [hsettled.passed.groupsOf hother]; exact hrest) q hmem b
    rw [hsettled.passed.listedOf q (hother q hmem), hsettled.emits.durationOf,
      (hsettled.emits.timing (hsettled.sameTiming _)).1] at hlater
    exact hlater hb

end Act

end Tween
