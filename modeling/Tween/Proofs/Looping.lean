import Tween.Proofs.Orderly

namespace Tween

variable {κ : Type}

namespace World

def afresh (w : World κ) (d : Ref Duration) : Duration :=
  { w.durations.get d with timer := (w.timer d).start (w.nowOf d) }

theorem Emits.afresh {w w' : World κ} {as : List Stroke} {rs : List (Ref Binding)}
    (h : w.Emits w' as rs) {d : Ref Duration} {t : Timer}
    (ht : w'.durations.get d = { w.durations.get d with timer := t })
    (hreversed : t.reversed = (w.timer d).reversed) : w'.afresh d = w.afresh d := by
  have hnow : w'.nowOf d = w.nowOf d := h.nowOf (by rw [ht])
  simp only [World.afresh, timer, Timer.start, ht, hnow, hreversed]

end World

namespace Act

open World

variable {s : Ref System} (w : World κ)

/-- A completed binding goes to the end of the list, and its duration is started. -/
theorem perform_retire_restart {b : Ref Binding} (hb : b ∈ w.listed s) :
    ∃ w', (retire s (follow s .restart) true b).perform w = (.ok (), w') ∧ w.Emits w' [] [b] ∧
      (∀ q, w'.durations.get q = if w.durationOf b = q then w.afresh q else w.durations.get q) ∧
      w.Relisted w' s ((w.listed s).erase b ++ [b]) := by
  obtain ⟨w₁, hdelist, hframe, hlist⟩ := perform_delist w hb
  obtain ⟨systems, rfl⟩ : ∃ systems, w₁ = { w with systems := systems } := ⟨_, hframe⟩
  have hlisted : World.listed { w with systems := systems } s = (w.listed s).erase b := by
    rw [hlist.listed, if_pos rfl]
  -- The report comes before the start, and the binding is listed again last.
  let w₂ : World κ := { w with systems := systems, journal := w.journal ++ [.reported b] }
  let w₃ : World κ := w₂.withTimer (w.durationOf b) (·.start (w.nowOf (w.durationOf b)))
  obtain ⟨w', henlist, hframe', hlist'⟩ := perform_setMembers w₃ s (w₃.listed s ++ [b])
  have hemits : w.Emits w₂ [] [b] :=
    ⟨rfl, rfl, by simp [w₂, writes], by simp [w₂, reports]⟩
  refine ⟨w', ?_, ?_, fun q => ?_, fun r => ?_⟩
  · rw [retire, perform_bind_ok _ hdelist]
    exact henlist
  · apply hemits.congr
    rw [hframe']
    rfl
  · rw [show w'.durations = w₃.durations by rw [hframe'], get_withTimer]
    by_cases hq : w.durationOf b = q
    · subst hq
      rw [if_pos rfl, if_pos rfl]
      rfl
    · rw [if_neg hq, if_neg hq]
  · rw [hlist' r, show w₃.listed s = _ from hlisted, show w₃.systems.get r = _ from hlist r]
    split <;> rfl

/-- The members of a class leave the front of the list for its end, one after the other. -/
theorem perform_forM_restart {d : Ref Duration} (inClass : Ref Binding → Bool)
    (bs front back : List (Ref Binding)) (hlist : w.listed s = front ++ back)
    (hof : ∀ b ∈ bs, w.durationOf b = d) (hbs : front.filter inClass = bs) :
    ∃ w', (bs.forM (retire s (follow s .restart) true)).perform w = (.ok (), w') ∧
      w.Emits w' [] bs ∧
      (∀ q, w'.durations.get q = if d = q ∧ bs ≠ [] then w.afresh q else w.durations.get q) ∧
      w.Relisted w' s (front.filter (!inClass ·) ++ back ++ bs) := by
  induction bs generalizing w front back with
  | nil =>
    have hall : front.filter (!inClass ·) = front := by
      rw [List.filter_eq_self]
      intro b hb
      simpa using List.filter_eq_nil_iff.mp hbs b hb
    refine ⟨w, rfl, .refl w, fun q => by simp, ?_⟩
    rw [hall, ← hlist, List.append_nil]
    exact .refl w s
  | cons b rest ih =>
    -- What is still to come is the class in `front`; what has been put back is in `back`.
    obtain ⟨hb, hclass, hothers⟩ := erase_head_class hbs
    rw [List.forall_mem_cons] at hof
    have hmem : b ∈ w.listed s := by
      rw [hlist]
      exact List.mem_append_left back hb
    obtain ⟨w₁, hretire, hemits, hdurations, hlist₁⟩ := perform_retire_restart w hmem
    rw [hof.1] at hdurations
    have hlisted : w₁.listed s = front.erase b ++ (back ++ [b]) := by
      rw [hlist₁.listed, if_pos rfl, hlist, List.erase_append_left back hb, List.append_assoc]
    obtain ⟨w₂, hrest, hemits', hdurations', hlist₂⟩ :=
      ih w₁ (front.erase b) (back ++ [b]) hlisted (by rw [hemits.durationOf]; exact hof.2) hclass
    have hafresh : w₁.afresh d = w.afresh d :=
      hemits.afresh (t := (w.timer d).start (w.nowOf d)) ((hdurations d).trans (if_pos rfl)) rfl
    refine ⟨w₂, ?_, ?_, fun q => ?_, ?_⟩
    · rw [List.forM_eq_forM, List.forM_cons, perform_bind_ok _ hretire]
      exact hrest
    · exact hemits.trans hemits'
    · rw [hdurations', hdurations]
      by_cases hq : d = q
      · subst hq
        simp [hafresh]
      · simp [hq]
    · rw [hothers] at hlist₂
      have := hlist₁.trans hlist₂
      simpa using this

end Act

namespace World

/-- The world `w'` is `w` once a system that restarts has settled its bindings of some durations,
whose progress is `p`. -/
structure Looped (w w' : World κ) (s : Ref System) (p : Ref Duration → Float)
    (ds : List (Ref Duration)) : Prop where
  emits : w.Emits w'
    ((ds.flatMap (w.listedOf s)).map fun b => w.stroke b (p (w.durationOf b)))
    ((ds.flatMap (w.listedOf s)).filter fun b => w.due (w.durationOf b))
  durations (q : Ref Duration) :
    w'.durations.get q = if q ∈ ds ∧ w.due q = true then w.afresh q else w.durations.get q
  relisted : w.Relisted w' s
    ((w.listed s).filter (fun b => !(w.durationOf b ∈ ds && w.finished (w.durationOf b))) ++
      (ds.flatMap (w.listedOf s)).filter fun b => w.due (w.durationOf b))

namespace Looped

variable {w w' : World κ} {s : Ref System} {p : Ref Duration → Float} {ds : List (Ref Duration)}

theorem durationOf_mem {b : Ref Binding} (hb : b ∈ ds.flatMap (w.listedOf s)) :
    w.durationOf b ∈ ds := by
  obtain ⟨q, hq, hb⟩ := List.mem_flatMap.mp hb
  rw [of_decide_eq_true (List.mem_filter.mp hb).2]
  exact hq

theorem passed (h : w.Looped w' s p ds) : w.Passed w' s p ds
    ((ds.flatMap (w.listedOf s)).filter fun b => w.due (w.durationOf b)) where
  emits := h.emits
  durations q hq := (h.durations q).trans (if_neg fun hd => hq hd.1)
  listedOf q hq := by
    have hback : ((ds.flatMap (w.listedOf s)).filter fun b => w.due (w.durationOf b)).filter
        (w.durationOf · = q) = [] := by
      rw [List.filter_eq_nil_iff]
      intro b hb hbq
      exact hq (of_decide_eq_true hbq ▸ durationOf_mem (List.mem_filter.mp hb).1)
    rw [World.listedOf, h.relisted.listed, if_pos rfl, h.emits.durationOf, List.filter_append,
      hback, List.append_nil, List.filter_filter]
    apply List.filter_congr
    intro b _
    by_cases hb : w.durationOf b = q
    · simp [hb, hq]
    · simp [hb]

theorem of_settled (h : w.Settled w' s .ignore p ds) (hdue : ∀ q ∈ ds, w.due q = false) :
    w.Looped w' s p ds := by
  have hnone : (ds.flatMap (w.listedOf s)).filter (fun b => w.due (w.durationOf b)) = [] := by
    rw [List.filter_eq_nil_iff]
    intro b hb
    simp [hdue _ (durationOf_mem hb)]
  refine ⟨?_, fun q => ?_, ?_⟩
  · rw [hnone]
    exact h.emits
  · have hq : ¬(q ∈ ds ∧ w.due q = true) := by
      rintro ⟨hq, hd⟩
      rw [hdue q hq] at hd
      cases hd
    rw [h.durations, if_neg hq, if_neg hq]
  · rw [hnone, List.append_nil]
    exact h.relisted

theorem nil (w : World κ) (s : Ref System) (p : Ref Duration → Float) : w.Looped w s p [] :=
  .of_settled (.nil w s .ignore p) fun _ hq => absurd hq List.not_mem_nil

theorem cons {w₁ w₂ : World κ} {d : Ref Duration} (hd : d ∉ ds) (h : w.Looped w₁ s p [d])
    (h' : w₁.Looped w₂ s p ds) : w.Looped w₂ s p (d :: ds) := by
  have hother := not_mem_singleton_of_mem hd
  have hlater := (h.passed.flatMap_listedOf hother).2
  refine ⟨?_, fun q => ?_, ?_⟩
  · have := (h.passed.cons hd h'.passed).emits
    rw [hlater, ← List.filter_append] at this
    simpa only [List.flatMap_cons, List.flatMap_nil, List.append_nil] using this
  · rw [h'.durations]
    by_cases hq : q ∈ ds
    · have hsame := h.passed.durations q (hother q hq)
      rw [h.passed.due (hother q hq), h.emits.afresh (t := w.timer q) hsame rfl, hsame]
      simp [hq]
    · rw [if_neg fun hqd => hq hqd.1, h.durations]
      simp [hq]
  · have hstays : ∀ b, (!(decide (w.durationOf b ∈ ds) && w₁.finished (w.durationOf b))) =
        !(decide (w.durationOf b ∈ ds) && w.finished (w.durationOf b)) := by
      intro b
      by_cases hb : w.durationOf b ∈ ds
      · rw [(h.passed.timing (hother _ hb)).2]
      · simp [hb]
    -- What the first duration has put back is of none of the others, so they leave it there.
    have hback : (([d].flatMap (w.listedOf s)).filter fun b => w.due (w.durationOf b)).filter
        (fun b => !(decide (w.durationOf b ∈ ds) && w.finished (w.durationOf b))) =
          ([d].flatMap (w.listedOf s)).filter fun b => w.due (w.durationOf b) := by
      rw [List.filter_eq_self]
      intro b hb
      simp [List.mem_singleton.mp (durationOf_mem (List.mem_filter.mp hb).1), hd]
    have := h.relisted.trans h'.relisted
    rw [h.relisted.listed, if_pos rfl, hlater, h.emits.durationOf, funext hstays,
      List.filter_append, hback, List.filter_filter, List.append_assoc, ← List.filter_append] at this
    rw [List.filter_congr fun b _ => ?_] at this
    · simpa only [List.flatMap_cons, List.flatMap_nil, List.append_nil] using this
    · by_cases hb : w.durationOf b = d <;> simp [hb, hd]

end Looped

end World

namespace Act

open World

variable {s : Ref System} {p : Ref Duration → Float}

theorem looped_settle (w : World κ) {d : Ref Duration} (hne : w.listedOf s d ≠ [])
    (hp : ∀ b ∈ w.listedOf s d, w.progress (w.durationOf b) = .ok (p (w.durationOf b))) :
    ∃ w', (settle s (follow s .restart) ⟨d, w.listedOf s d⟩).perform w = (.ok (), w') ∧
      w.Looped w' s p [d] := by
  cases hdue : w.due d with
  | false =>
    rw [settle_of_not_due w hp hdue _ (follow s .ignore)]
    obtain ⟨w', hsettle, hsettled⟩ := settled_settle w (show Policy.ignore.isQuiet = true from rfl)
      d hp
    exact ⟨w', hsettle, .of_settled hsettled (by simpa using hdue)⟩
  | true =>
    have hfinished : w.finished d = true := finished_of_due hdue
    obtain ⟨w₁, hemits, hsystems, hdurations, hrun⟩ := perform_settle_of_progress w (d := d) hp
    have hlisted : w₁.listed s = w.listed s := by rw [World.listed, hsystems]; rfl
    obtain ⟨w₂, hretire, hemits₂, hdurations₂, hlist⟩ := perform_forM_restart w₁ (d := d)
      (w.durationOf · = d) (w.listedOf s d) (w.listed s) [] (by rw [hlisted, List.append_nil])
      (by
        intro b hb
        rw [hemits.durationOf]
        exact of_decide_eq_true (List.mem_filter.mp hb).2) rfl
    -- By the time of the starts the completion is consumed, which makes no difference to them.
    have hconsumed : w₁.durations.get d =
        { w.durations.get d with timer := (w.timer d).consumed } := by
      rw [hdurations, if_pos ⟨rfl, hdue⟩]
    have hall : (w.listedOf s d).filter (fun b => w.due (w.durationOf b)) = w.listedOf s d := by
      rw [filter_listedOf w s d w.due, hdue, List.filter_true]
    refine ⟨w₂, ?_, ?_, fun q => ?_, ?_⟩
    · rw [hrun, if_pos hfinished, hdue]
      exact hretire
    · have := hemits.trans hemits₂
      simpa only [List.flatMap_cons, List.flatMap_nil, List.append_nil, List.nil_append, hall]
        using this
    · rw [hdurations₂]
      by_cases hq : d = q
      · subst hq
        rw [hemits.afresh hconsumed rfl, if_pos ⟨rfl, hne⟩, if_pos ⟨List.mem_cons_self, hdue⟩]
      · rw [if_neg fun h => hq h.1, hdurations, if_neg fun h => hq h.1,
          if_neg fun h => hq (List.mem_singleton.mp h.1).symm]
    · have hothers : (w.listed s).filter (fun b =>
          !(decide (w.durationOf b ∈ [d]) && w.finished (w.durationOf b))) =
            (w.listed s).filter fun b => !decide (w.durationOf b = d) := by
        apply List.filter_congr
        intro b _
        by_cases hb : w.durationOf b = d <;> simp [hb, hfinished]
      intro r
      rw [hlist r, hsystems, hothers]
      simp [hall]

theorem looped_forM_settle (w : World κ) {ds : List (Ref Duration)} (hds : ds.Nodup)
    (hne : ∀ d ∈ ds, w.listedOf s d ≠ [])
    (hp : ∀ d ∈ ds, ∀ b ∈ w.listedOf s d, w.progress (w.durationOf b) = .ok (p (w.durationOf b))) :
    ∃ w', ((w.groupsOf s ds).forM (settle s (follow s .restart))).perform w = (.ok (), w') ∧
      w.Looped w' s p ds :=
  forM_settle_induction (fun w => .nil w s p) (fun hd h h' => h.cons hd h')
    (fun h => ⟨_, h.passed⟩) (fun w _ hne hp => looped_settle w hne hp) w hds hne hp

end Act

namespace World

/-- The world `w'` is `w` after a tick of a system that restarts, when the progress of durations is
`p`. -/
structure Cycled (w w' : World κ) (s : Ref System) (p : Ref Duration → Float) : Prop where
  emits : w.Emits w' ((w.tickOrder s).map fun b => w.stroke b (p (w.durationOf b)))
    ((w.tickOrder s).filter fun b => w.phase (w.durationOf b) = .completed)
  durations (d : Ref Duration) :
    w'.durations.get d =
      if (∃ b ∈ w.listed s, w.durationOf b = d) ∧ w.phase d = .completed then w.afresh d
      else w.durations.get d
  relisted : w.Relisted w' s
    ((w.listed s).filter (fun b => w.phase (w.durationOf b) = .running) ++
      (w.tickOrder s).filter fun b => w.phase (w.durationOf b) = .completed)

theorem Looped.cycled {w w' : World κ} {s : Ref System} {p : Ref Duration → Float}
    (h : w.Looped w' s p ((w.listed s).map w.durationOf).eraseDups) : w.Cycled w' s p := by
  refine ⟨?_, fun d => ?_, ?_⟩
  · have := h.emits
    rwa [flatMap_listedOf_eraseDups] at this
  · rw [h.durations]
    exact if_congr (visited_and_due_iff w s d) rfl rfl
  · have := h.relisted
    rwa [flatMap_listedOf_eraseDups, filter_settled] at this

namespace Cycled

variable {w w' : World κ} {s : Ref System} {p : Ref Duration → Float}

theorem policy (h : w.Cycled w' s p) : (w'.systems.get s).policy = (w.systems.get s).policy := by
  rw [h.relisted s, if_pos rfl]

theorem timer (h : w.Cycled w' s p) (d : Ref Duration) :
    w'.timer d =
      if (∃ b ∈ w.listed s, w.durationOf b = d) ∧ w.phase d = .completed then
        (w.timer d).start (w.nowOf d)
      else w.timer d := by
  rw [World.timer, h.durations]
  split <;> rfl

theorem perm_listed (h : w.Cycled w' s p) :
    (w'.listed s).Perm ((w.listed s).filter fun b => w.phase (w.durationOf b) ≠ .idle) := by
  let runs : Ref Binding → Bool := fun b => w.phase (w.durationOf b) = .running
  let completes : Ref Binding → Bool := fun b => w.phase (w.durationOf b) = .completed
  have hrun : ((w.listed s).filter fun b => w.phase (w.durationOf b) ≠ .idle).filter runs =
      (w.listed s).filter runs := by
    rw [List.filter_filter]
    apply List.filter_congr
    intro b _
    cases hb : w.phase (w.durationOf b) <;> simp [runs, hb]
  have hcomplete : ((w.listed s).filter fun b => w.phase (w.durationOf b) ≠ .idle).filter
      (!runs ·) = (w.listed s).filter completes := by
    rw [List.filter_filter]
    apply List.filter_congr
    intro b _
    cases hb : w.phase (w.durationOf b) <;> simp [runs, completes, hb]
  rw [h.relisted.listed, if_pos rfl]
  have hback : ((w.tickOrder s).filter completes).Perm ((w.listed s).filter completes) :=
    (w.perm_tickOrder s).filter completes
  refine (hback.append_left _).trans ?_
  rw [← hrun, ← hcomplete]
  exact List.filter_append_perm runs _

/-- Where every listed binding has its completion ahead, every one still has it ahead. -/
theorem pending (h : w.Cycled w' s p)
    (hpending : ∀ b ∈ w.listed s, (w.timer (w.durationOf b)).pending = true) :
    (w'.listed s).Perm (w.listed s) ∧
      ∀ b ∈ w'.listed s, (w'.timer (w'.durationOf b)).pending = true := by
  have hall : ((w.listed s).filter fun b => w.phase (w.durationOf b) ≠ .idle) = w.listed s := by
    rw [List.filter_eq_self]
    intro b hb
    rw [decide_eq_true_iff]
    intro hidle
    have := ((Timer.phase_eq_idle_iff _ _ _).mp hidle).2
    rw [hpending b hb] at this
    cases this
  have hperm : (w'.listed s).Perm (w.listed s) := by
    have := h.perm_listed
    rwa [hall] at this
  refine ⟨hperm, fun b hb => ?_⟩
  rw [h.emits.durationOf, h.timer]
  split
  · rfl
  · exact hpending b (hperm.mem_iff.mp hb)

end Cycled

end World

namespace Act

open World

theorem cycled_tick (w : World κ) {s : Ref System} {p : Ref Duration → Float}
    (hpolicy : (w.systems.get s).policy = .restart)
    (hp : ∀ b ∈ w.listed s, w.progress (w.durationOf b) = .ok (p (w.durationOf b))) :
    ∃ w', (tick s).perform w = (.ok (), w') ∧ w.Cycled w' s p := by
  obtain ⟨w', htick, hlooped⟩ := looped_forM_settle w
    (nodup_eraseDups ((w.listed s).map w.durationOf)) (w.listedOf_ne_nil s) fun d _ b hb =>
      hp b (List.mem_filter.mp hb).1
  rw [← hpolicy] at htick
  exact ⟨w', htick, hlooped.cycled⟩

end Act

namespace Call

theorem cycled {c : Call κ} {s : Ref System}
    (hpolicy : (c.before.systems.get s).policy = .restart) (hop : c.op = .onSystem s .tick)
    (hp : ∀ b ∈ c.before.listed s, (c.before.progress (c.before.durationOf b)).isOk = true) :
    c.outcome = .ok .done ∧ c.before.Cycled c.after s c.before.reading := by
  obtain ⟨w', htick, hcycled⟩ := Act.cycled_tick c.before hpolicy fun b hb =>
    World.progress_eq_reading (hp b hb)
  have hstep : c.before.step c.op = (.ok .done, w') := by
    rw [hop, World.step_onSystem_tick, htick]
    rfl
  rw [outcome, after, hstep]
  exact ⟨rfl, hcycled⟩

end Call

namespace World

end World

end Tween
