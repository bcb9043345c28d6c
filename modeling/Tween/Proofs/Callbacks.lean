import Tween.Proofs.Looping

namespace Tween

variable {κ : Type}

def Policy.told (policy : Policy) (bs : List (Ref Binding)) : List (Ref Binding) :=
  if policy = .ignore then [] else bs

theorem Policy.told_perm (policy : Policy) {as bs : List (Ref Binding)} (h : as.Perm bs) :
    (policy.told as).Perm (policy.told bs) := by
  unfold told
  split
  · exact .nil
  · exact h

theorem Policy.kept_eq_told {policy : Policy} (hq : policy.isQuiet = true)
    (bs : List (Ref Binding)) : policy.kept bs = policy.told bs := by
  cases policy with
  | ignore | record => rfl
  | _ => cases hq

namespace World

/-- The bindings of some durations that a system takes off its list, in order. -/
def leavingOf (w : World κ) (s : Ref System) (ds : List (Ref Duration)) : List (Ref Binding) :=
  (ds.flatMap (w.listedOf s)).filter fun b => w.finished (w.durationOf b)

/-- The bindings of some durations that are taken off before a first report could empty the list,
and the binding that is reported. -/
def reachedOf (w : World κ) (s : Ref System) (ds : List (Ref Duration)) : List (Ref Binding) :=
  throughFirst (fun b => w.due (w.durationOf b)) (w.leavingOf s ds)

theorem leavingOf_cons (w : World κ) (s : Ref System) (d : Ref Duration)
    (ds : List (Ref Duration)) :
    w.leavingOf s (d :: ds) =
      (if w.finished d then w.listedOf s d else []) ++ w.leavingOf s ds := by
  have hfirst : (w.listedOf s d).filter (fun b => w.finished (w.durationOf b)) =
      if w.finished d then w.listedOf s d else [] := by
    rw [filter_listedOf w s d w.finished]
    cases w.finished d
    · exact List.filter_false _
    · exact List.filter_true _
  rw [leavingOf, List.flatMap_cons, List.filter_append, hfirst]
  rfl

end World

namespace Act

open World

variable {s : Ref System} {p : Ref Duration → Float}

theorem perform_delist_of_empty {w : World κ} (hempty : w.listed s = []) (b : Ref Binding) :
    (delist s b).perform w = (.error .notListed, w) := by
  rw [delist, perform_get_bind]
  change (if b ∈ w.listed s then _ else _ : Act κ Unit).perform w = _
  rw [hempty, if_neg List.not_mem_nil]
  rfl

theorem perform_forM_retire_of_empty {w : World κ} (hempty : w.listed s = [])
    (report : Ref Binding → Act κ Unit) (due : Bool) {bs : List (Ref Binding)} (hne : bs ≠ []) :
    (bs.forM (retire s report due)).perform w = (.error .notListed, w) := by
  cases bs with
  | nil => exact absurd rfl hne
  | cons b rest =>
    rw [List.forM_eq_forM, List.forM_cons, perform_bind, retire, perform_bind,
      perform_delist_of_empty hempty]

/-- Once the list is empty, a tick goes on until it wants to take something off it. -/
theorem perform_forM_settle_of_empty (report : Ref Binding → Act κ Unit) (gs : List Group)
    (w : World κ) (hempty : w.listed s = []) (hne : ∀ g ∈ gs, g.members ≠ [])
    (hp : ∀ g ∈ gs, ∀ b ∈ g.members, w.progress (w.durationOf b) = .ok (p (w.durationOf b))) :
    ∃ w', (gs.forM (settle s report)).perform w =
        (if gs.any (w.finished ·.duration) then .error .notListed else .ok (), w') ∧
      w'.reports = w.reports ∧
      (gs.any (w.finished ·.duration) = false →
        ∀ q, w'.durations.get q = w.durations.get q) := by
  induction gs generalizing w with
  | nil => exact ⟨w, rfl, rfl, fun _ _ => rfl⟩
  | cons g rest ih =>
    rw [List.forall_mem_cons] at hne hp
    obtain ⟨w₁, hemits, hsystems, hdurations, hrun⟩ :=
      perform_settle_of_progress w (d := g.duration) hp.1
    have hempty₁ : w₁.listed s = [] := by rw [listed, hsystems]; exact hempty
    have hreports : w₁.reports = w.reports := hemits.reports.trans (List.append_nil _)
    have hfirst := hrun s report
    rw [List.any_cons]
    cases hf : w.finished g.duration with
    | true =>
      -- The first that has come to its end is to be taken off the list, and is not there.
      rw [hf, if_pos rfl, perform_forM_retire_of_empty hempty₁ _ _ hne.1] at hfirst
      refine ⟨w₁, ?_, hreports, fun h => by simp at h⟩
      rw [List.forM_eq_forM, List.forM_cons, perform_bind, hfirst]
      rfl
    | false =>
      have hsame : ∀ q, w₁.durations.get q = w.durations.get q := by
        intro q
        rw [hdurations, due_eq, hf]
        simp
      have hfinished : w₁.finished = w.finished :=
        funext fun q => (hemits.timing (.of_eq (hsame q))).2
      rw [hf, if_neg Bool.false_ne_true] at hfirst
      obtain ⟨w', hrest, hreports', hdurations'⟩ := ih w₁ hempty₁ hne.2 fun g hg b hb => by
        rw [hemits.durationOf, (hemits.timing (.of_eq (hsame _))).1]
        exact hp.2 g hg b hb
      simp only [hfinished] at hrest hdurations'
      refine ⟨w', ?_, hreports'.trans hreports, fun h q => ?_⟩
      · rw [List.forM_eq_forM, List.forM_cons, perform_bind_ok _ hfirst]
        exact hrest
      · rw [hdurations' h, hsame]

/-- The first report empties the list, and nothing can be taken off it after that. -/
theorem perform_forM_clear (w : World κ) {b : Ref Binding} (hb : b ∈ w.listed s)
    (rest : List (Ref Binding)) :
    ∃ w', ((b :: rest).forM (retire s (follow s .clear) true)).perform w =
        (if rest = [] then .ok () else .error .notListed, w') ∧
      w.Emits w' [] [b] ∧ w'.durations = w.durations ∧ w'.listed s = [] := by
  obtain ⟨w₁, hdelist, hframe, -⟩ := perform_delist w hb
  obtain ⟨systems, rfl⟩ : ∃ systems, w₁ = { w with systems := systems } := ⟨_, hframe⟩
  let w₂ : World κ := { w with systems := systems, journal := w.journal ++ [.reported b] }
  obtain ⟨w', hclear, hframe', hlist'⟩ := perform_setMembers w₂ s []
  have hempty : w'.listed s = [] := by rw [hlist'.listed, if_pos rfl]
  have hemits : w.Emits w₂ [] [b] :=
    ⟨rfl, rfl, by simp [w₂, writes], by simp [w₂, reports]⟩
  have hretire : (retire s (follow s .clear) true b).perform w = (.ok (), w') := by
    rw [retire, perform_bind_ok _ hdelist]
    exact hclear
  refine ⟨w', ?_, hemits.congr ?_, by rw [hframe'], hempty⟩
  · rw [List.forM_eq_forM, List.forM_cons, perform_bind_ok _ hretire]
    by_cases hrest : rest = []
    · rw [hrest, if_pos rfl]
      rfl
    · rw [if_neg hrest]
      exact perform_forM_retire_of_empty hempty _ _ hrest
  · rw [hframe']

end Act

namespace World

/-- The world `w'` is `w` once a system that clears has settled its bindings of some durations, as
far as it got. -/
structure Cleared (w w' : World κ) (s : Ref System) (ds : List (Ref Duration))
    (outcome : Except Fault Unit) : Prop where
  ends : outcome =
    if w.reachedOf s ds = w.leavingOf s ds then Except.ok () else .error .notListed
  reports : w'.reports = w.reports ++ (w.reachedOf s ds).filter fun b => w.due (w.durationOf b)
  durations : outcome = .ok () → ∀ q, w'.durations.get q =
    if q ∈ ds ∧ w.due q = true then { w.durations.get q with timer := (w.timer q).consumed }
    else w.durations.get q

variable {w w₁ w' : World κ} {s : Ref System} {d : Ref Duration} {ds : List (Ref Duration)}
  {outcome : Except Fault Unit}

theorem due_listedOf {b : Ref Binding} (hb : b ∈ w.listedOf s d) :
    w.due (w.durationOf b) = w.due d := by
  rw [of_decide_eq_true (List.mem_filter.mp hb).2]

theorem leavingOf_eq_nil_iff (hne : ∀ d ∈ ds, w.listedOf s d ≠ []) :
    w.leavingOf s ds = [] ↔ ds.any w.finished = false := by
  induction ds with
  | nil => exact iff_of_true rfl rfl
  | cons d rest ih =>
    rw [List.forall_mem_cons] at hne
    rw [leavingOf_cons, List.append_eq_nil_iff, ih hne.2, List.any_cons, Bool.or_eq_false_iff]
    cases w.finished d
    · simp
    · simp [hne.1]

theorem leavingOf_cons_of_due {b : Ref Binding} {rest : List (Ref Binding)}
    (hdue : w.due d = true) (hlist : w.listedOf s d = b :: rest) :
    w.leavingOf s (d :: ds) = b :: (rest ++ w.leavingOf s ds) := by
  rw [leavingOf_cons, if_pos (finished_of_due hdue), hlist, List.cons_append]

/-- The first binding of a completed duration is the last one that a tick gets to. -/
theorem reachedOf_cons_of_due (ds : List (Ref Duration)) {b : Ref Binding}
    {rest : List (Ref Binding)} (hdue : w.due d = true) (hlist : w.listedOf s d = b :: rest) :
    w.reachedOf s (d :: ds) = [b] ∧ [b].filter (fun c => w.due (w.durationOf c)) = [b] := by
  have hb : w.due (w.durationOf b) = true := by
    rw [due_listedOf (s := s) (d := d) (by simp [hlist]), hdue]
  rw [reachedOf, leavingOf_cons_of_due hdue hlist, throughFirst_cons]
  simp [hb]

/-- Until a completion is due, a system that clears does what any other does. -/
theorem Cleared.of_not_due {p : Ref Duration → Float} (hd : d ∉ ds) (hdue : w.due d = false)
    (h : w.Settled w₁ s .ignore p [d]) (h' : w₁.Cleared w' s ds outcome) :
    w.Cleared w' s (d :: ds) outcome := by
  have hsame : ∀ q, w₁.durations.get q = w.durations.get q := by
    intro q
    rw [h.durations, if_neg]
    rintro ⟨hq, hqdue⟩
    rw [List.mem_singleton.mp hq, hdue] at hqdue
    cases hqdue
  have hfinished : w₁.finished = w.finished :=
    funext fun q => (h.emits.timing (.of_eq (hsame q))).2
  have hdues : w₁.due = w.due := by
    funext q
    rw [due_eq, due_eq, hfinished, timer, timer, hsame]
  have hleaving : w₁.leavingOf s ds = w.leavingOf s ds := by
    rw [leavingOf, leavingOf, hfinished, h.emits.durationOf,
      List.flatMap_congr fun q hq => h.passed.listedOf q (not_mem_singleton_of_mem hd q hq)]
  have hreached : w₁.reachedOf s ds = w.reachedOf s ds := by
    rw [reachedOf, reachedOf, hleaving, hdues, h.emits.durationOf]
  -- The bindings of `d` go first, and nobody is told of them.
  let front := if w.finished d then w.listedOf s d else []
  have hfront : ∀ b ∈ front, w.due (w.durationOf b) = false := by
    intro b hb
    simp only [front] at hb
    split at hb
    · rw [due_listedOf hb, hdue]
    · cases hb
  have hleavingOf : w.leavingOf s (d :: ds) = front ++ w.leavingOf s ds := leavingOf_cons w s d ds
  have hreachedOf : w.reachedOf s (d :: ds) = front ++ w.reachedOf s ds := by
    rw [reachedOf, hleavingOf, throughFirst_append _ hfront]
    rfl
  have hnone : front.filter (fun b => w.due (w.durationOf b)) = [] := by
    rw [List.filter_eq_nil_iff]
    intro b hb
    simp [hfront b hb]
  refine ⟨?_, ?_, fun hok q => ?_⟩
  · simp only [hreachedOf, hleavingOf, List.append_cancel_left_eq]
    rw [h'.ends, hreached, hleaving]
  · rw [h'.reports, h.emits.reports, hreached, hreachedOf, List.filter_append, hnone, hdues,
      h.emits.durationOf]
    exact congrArg (· ++ _) (List.append_nil _)
  · rw [h'.durations hok, hdues, timer, hsame]
    by_cases hq : q = d
    · subst hq
      simp [hdue]
    · simp [hq, timer]

/-- Once a completion is due, one binding is reported, and the tick goes on only if nothing else is
to be taken off the list. -/
theorem Cleared.of_due {b : Ref Binding} {rest : List (Ref Binding)} (hdue : w.due d = true)
    (hlist : w.listedOf s d = b :: rest) (hne : ∀ q ∈ ds, w.listedOf s q ≠ [])
    (hends : outcome =
      if rest = [] ∧ ds.any w.finished = false then .ok () else .error .notListed)
    (hreports : w'.reports = w.reports ++ [b])
    (hdurations : outcome = .ok () → ∀ q, w'.durations.get q =
      if d = q then { w.durations.get q with timer := (w.timer q).consumed }
      else w.durations.get q) :
    w.Cleared w' s (d :: ds) outcome := by
  obtain ⟨hreached, htold⟩ := reachedOf_cons_of_due ds hdue hlist
  have hall : w.reachedOf s (d :: ds) = w.leavingOf s (d :: ds) ↔
      rest = [] ∧ ds.any w.finished = false := by
    rw [hreached, leavingOf_cons_of_due hdue hlist, ← leavingOf_eq_nil_iff hne]
    simp only [List.cons.injEq, true_and, List.nil_eq, List.append_eq_nil_iff]
  refine ⟨?_, ?_, fun hok q => ?_⟩
  · rw [hends]
    exact if_congr hall.symm rfl rfl
  · rw [hreports, hreached, htold]
  · rw [hdurations hok]
    by_cases hq : d = q
    · subst hq
      simp [hdue]
    · -- Of the others none has finished, so none is due.
      have hnone : ds.any w.finished = false := by
        rw [hends] at hok
        split at hok
        · next h => exact h.2
        · cases hok
      have hother : ¬(q ∈ d :: ds ∧ w.due q = true) := by
        rintro ⟨hmem, hqdue⟩
        rcases List.mem_cons.mp hmem with rfl | hmem
        · exact hq rfl
        · exact List.any_eq_false.mp hnone q hmem (finished_of_due hqdue)
      rw [if_neg hq, if_neg hother]

end World

namespace Act

open World

variable {s : Ref System} {p : Ref Duration → Float}

/-- A system that clears is told of the first binding of a completed duration, and goes on with an
empty list. -/
theorem perform_settle_clear (w : World κ) {d : Ref Duration} {b : Ref Binding}
    {rest : List (Ref Binding)} (hdue : w.due d = true) (hlist : w.listedOf s d = b :: rest)
    (hp : ∀ b ∈ w.listedOf s d, w.progress (w.durationOf b) = .ok (p (w.durationOf b))) :
    ∃ w', (settle s (follow s .clear) ⟨d, w.listedOf s d⟩).perform w =
        (if rest = [] then .ok () else .error .notListed, w') ∧
      w.Emits w' ((w.listedOf s d).map fun b => w.stroke b (p (w.durationOf b))) [b] ∧
      (∀ q, w'.durations.get q =
        if d = q then { w.durations.get q with timer := (w.timer q).consumed }
        else w.durations.get q) ∧
      w'.listed s = [] := by
  have hfinished : w.finished d = true := finished_of_due hdue
  obtain ⟨w₁, hemits, hsystems, hdurations, hrun⟩ := perform_settle_of_progress w (d := d) hp
  have hmem : b ∈ w₁.listed s := by
    have hb : b ∈ w.listedOf s d := by simp [hlist]
    rw [listed, hsystems]
    exact (List.mem_filter.mp hb).1
  obtain ⟨w₂, hclear, hemits₂, hdurations₂, hempty⟩ := perform_forM_clear w₁ hmem rest
  refine ⟨w₂, ?_, ?_, fun q => ?_, hempty⟩
  · rw [hrun, if_pos hfinished, hdue]
    rw [← hlist] at hclear
    exact hclear
  · have := hemits.trans hemits₂
    rwa [List.append_nil, List.nil_append] at this
  · rw [hdurations₂, hdurations, hdue]
    simp

/-- Once the list is empty, a tick goes through what it has found listed until something has come to
its end. -/
theorem perform_forM_groupsOf_of_empty {w w₁ : World κ} {ds : List (Ref Duration)}
    (report : Ref Binding → Act κ Unit) (hempty : w₁.listed s = [])
    (hof : w₁.durationOf = w.durationOf)
    (hsame : ∀ q ∈ ds, w₁.progress q = w.progress q ∧ w₁.finished q = w.finished q)
    (hne : ∀ q ∈ ds, w.listedOf s q ≠ [])
    (hp : ∀ q ∈ ds, ∀ b ∈ w.listedOf s q,
      w.progress (w.durationOf b) = .ok (p (w.durationOf b))) :
    ∃ w', ((w.groupsOf s ds).forM (settle s report)).perform w₁ =
        (if ds.any w.finished then .error .notListed else .ok (), w') ∧ w'.reports = w₁.reports ∧
      (ds.any w.finished = false → ∀ q, w'.durations.get q = w₁.durations.get q) := by
  have hmembers : ∀ g ∈ w.groupsOf s ds, g.members ≠ [] := by
    intro g hg
    obtain ⟨q, hq, rfl⟩ := List.mem_map.mp hg
    exact hne q hq
  have hprogress : ∀ g ∈ w.groupsOf s ds, ∀ c ∈ g.members,
      w₁.progress (w₁.durationOf c) = .ok (p (w₁.durationOf c)) := by
    intro g hg c hc
    obtain ⟨q, hq, rfl⟩ := List.mem_map.mp hg
    have hcq : w.durationOf c = q := of_decide_eq_true (List.mem_filter.mp hc).2
    rw [hof, hcq, (hsame q hq).1, ← hcq]
    exact hp q hq c hc
  have hany : (w.groupsOf s ds).any (w₁.finished ·.duration) = ds.any w.finished := by
    rw [groupsOf, List.any_map, Bool.eq_iff_iff, List.any_eq_true, List.any_eq_true]
    exact exists_congr fun q => and_congr_right fun hq => by
      rw [Function.comp_apply, (hsame q hq).2]
  rw [← hany]
  exact perform_forM_settle_of_empty report _ w₁ hempty hmembers hprogress

theorem cleared_of_due (w : World κ) {d : Ref Duration} {ds : List (Ref Duration)} (hd : d ∉ ds)
    (hdue : w.due d = true) (hne : ∀ q ∈ d :: ds, w.listedOf s q ≠ [])
    (hp : ∀ q ∈ d :: ds, ∀ b ∈ w.listedOf s q,
      w.progress (w.durationOf b) = .ok (p (w.durationOf b))) :
    ∃ r w', ((w.groupsOf s (d :: ds)).forM (settle s (follow s .clear))).perform w = (r, w') ∧
      w.Cleared w' s (d :: ds) r := by
  rw [List.forall_mem_cons] at hne hp
  obtain ⟨b, rest, hlist⟩ := List.exists_cons_of_ne_nil hne.1
  obtain ⟨w₂, hfirst, hemits, hafter, hempty⟩ := perform_settle_clear w hdue hlist hp.1
  rw [groupsOf, List.map_cons, List.forM_eq_forM, List.forM_cons, perform_bind, hfirst]
  -- With another binding of the duration, the tick fails here; without, it gets to the others.
  by_cases hrest : rest = []
  · have hlater : ∀ q ∈ ds, w₂.progress q = w.progress q ∧ w₂.finished q = w.finished q := by
      intro q hq
      have hdq : d ≠ q := fun heq => hd (heq ▸ hq)
      exact hemits.timing (.of_eq ((hafter q).trans (if_neg hdq)))
    obtain ⟨w', hlast, hreports, hdurations⟩ := perform_forM_groupsOf_of_empty (follow s .clear)
      hempty hemits.durationOf hlater hne.2 hp.2
    rw [hrest, if_pos rfl]
    refine ⟨_, w', hlast, .of_due hdue hlist hne.2 ?_ (hreports.trans hemits.reports) ?_⟩
    · cases ds.any w.finished <;> simp [hrest]
    · intro hok q
      cases hnone : ds.any w.finished with
      | true =>
        rw [hnone] at hok
        cases hok
      | false => rw [hdurations hnone, hafter]
  · rw [if_neg hrest]
    refine ⟨_, w₂, rfl, .of_due hdue hlist hne.2 ?_ hemits.reports fun hok => ?_⟩
    · rw [if_neg fun h => hrest h.1]
    · cases hok

/-- A system that clears settles the bindings of several durations, as far as it gets. -/
theorem cleared_forM_settle (w : World κ) {ds : List (Ref Duration)} (hds : ds.Nodup)
    (hne : ∀ q ∈ ds, w.listedOf s q ≠ [])
    (hp : ∀ q ∈ ds, ∀ b ∈ w.listedOf s q, w.progress (w.durationOf b) = .ok (p (w.durationOf b))) :
    ∃ r w', ((w.groupsOf s ds).forM (settle s (follow s .clear))).perform w = (r, w') ∧
      w.Cleared w' s ds r := by
  induction ds generalizing w with
  | nil => exact ⟨.ok (), w, rfl, rfl, (List.append_nil _).symm, fun _ q => by simp⟩
  | cons d ds ih =>
    rw [List.nodup_cons] at hds
    -- Until a completion is due, a system that clears does what one that ignores does.
    cases hdue : w.due d with
    | true => exact cleared_of_due w hds.1 hdue hne hp
    | false =>
      rw [List.forall_mem_cons] at hne hp
      obtain ⟨w₁, hfirst, hsettled⟩ := settled_settle w
        (show Policy.ignore.isQuiet = true from rfl) d hp.1
      rw [settle_of_not_due w hp.1 hdue _ (follow s .clear)] at hfirst
      have hother := not_mem_singleton_of_mem hds.1
      obtain ⟨r, w', hrest, hcleared⟩ := ih w₁ hds.2
        (fun q hq => by
          rw [hsettled.passed.listedOf q (hother q hq)]
          exact hne.2 q hq)
        (fun q hq b hb => by
          rw [hsettled.passed.listedOf q (hother q hq)] at hb
          rw [hsettled.emits.durationOf, (hsettled.emits.timing (hsettled.sameTiming _)).1]
          exact hp.2 q hq b hb)
      rw [hsettled.passed.groupsOf hother] at hrest
      refine ⟨r, w', ?_, .of_not_due hds.1 hdue hsettled hcleared⟩
      rw [groupsOf, List.map_cons, List.forM_eq_forM, List.forM_cons, perform_bind_ok _ hfirst]
      exact hrest

end Act

namespace World

variable (w : World κ) (s : Ref System)

/-- The bindings that a tick takes off the list of a system, in order. -/
def leaving : List (Ref Binding) :=
  (w.tickOrder s).filter fun b => w.phase (w.durationOf b) ≠ .running

/-- The bindings that a tick gets to: all that it takes off the list, unless the callback empties
that, which happens at the first binding that has completed. -/
def reached : List (Ref Binding) :=
  if (w.systems.get s).policy = .clear then
    throughFirst (fun b => w.phase (w.durationOf b) = .completed) (w.leaving s)
  else w.leaving s

theorem reached_of_ne_clear (h : (w.systems.get s).policy ≠ .clear) : w.reached s = w.leaving s :=
  if_neg h

theorem leavingOf_eraseDups :
    w.leavingOf s ((w.listed s).map w.durationOf).eraseDups = w.leaving s := by
  rw [leavingOf, flatMap_listedOf_eraseDups, leaving]
  apply List.filter_congr
  intro b _
  rw [Bool.eq_iff_iff, decide_eq_true_iff, phase_ne_running_iff]

theorem filter_completed_leaving :
    (w.leaving s).filter (fun b => w.phase (w.durationOf b) = .completed) =
      (w.tickOrder s).filter fun b => w.phase (w.durationOf b) = .completed := by
  rw [leaving, List.filter_filter]
  apply List.filter_congr
  intro b _
  cases w.phase (w.durationOf b) <;> rfl

/-- The duration of a system's binding after a tick has consumed its completion. -/
def turnedOver (d : Ref Duration) : Duration :=
  if (w.systems.get s).policy = .restart then w.afresh d
  else { w.durations.get d with timer := (w.timer d).consumed }

/-- The world `w'` is `w` after a tick under any policy, as far as it got. -/
structure Answered (w w' : World κ) (s : Ref System) (outcome : Except Fault Unit) : Prop where
  ends : outcome = if w.reached s = w.leaving s then Except.ok () else .error .notListed
  reports : w'.reports = w.reports ++ (w.systems.get s).policy.told
    ((w.reached s).filter fun b => w.phase (w.durationOf b) = .completed)
  durations : outcome = .ok () → ∀ d, w'.durations.get d =
    if (∃ b ∈ w.listed s, w.durationOf b = d) ∧ w.phase d = .completed then w.turnedOver s d
    else w.durations.get d

variable {w s} {w' : World κ} {p : Ref Duration → Float}

theorem Ticked.answered (hq : (w.systems.get s).policy.isQuiet = true) (h : w.Ticked w' s p) :
    w.Answered w' s (.ok ()) := by
  have hclear : (w.systems.get s).policy ≠ .clear := by
    intro hc
    rw [hc] at hq
    cases hq
  have hrestart : (w.systems.get s).policy ≠ .restart := by
    intro hc
    rw [hc] at hq
    cases hq
  have hreached := w.reached_of_ne_clear s hclear
  refine ⟨(if_pos hreached).symm, ?_, fun _ d => ?_⟩
  · rw [hreached, filter_completed_leaving, ← Policy.kept_eq_told hq]
    exact h.emits.reports
  · rw [h.durations, turnedOver, if_neg hrestart]

theorem Cycled.answered (hpolicy : (w.systems.get s).policy = .restart) (h : w.Cycled w' s p) :
    w.Answered w' s (.ok ()) := by
  have hreached := w.reached_of_ne_clear s (by simp [hpolicy])
  refine ⟨(if_pos hreached).symm, ?_, fun _ d => ?_⟩
  · rw [hreached, filter_completed_leaving, hpolicy]
    exact h.emits.reports
  · rw [h.durations, turnedOver, if_pos hpolicy]

theorem Cleared.answered (hpolicy : (w.systems.get s).policy = .clear)
    {outcome : Except Fault Unit}
    (h : w.Cleared w' s ((w.listed s).map w.durationOf).eraseDups outcome) :
    w.Answered w' s outcome := by
  have hreached : w.reachedOf s ((w.listed s).map w.durationOf).eraseDups = w.reached s := by
    rw [reachedOf, leavingOf_eraseDups, reached, if_pos hpolicy]
    rfl
  refine ⟨?_, ?_, fun hok d => ?_⟩
  · rw [h.ends]
    simp only [hreached, leavingOf_eraseDups]
  · rw [h.reports, hreached, hpolicy]
    rfl
  · have hrestart : (w.systems.get s).policy ≠ .restart := by simp [hpolicy]
    rw [h.durations hok, turnedOver, if_neg hrestart]
    exact if_congr (visited_and_due_iff w s d) rfl rfl

end World

namespace Act

open World

theorem answered_tick (w : World κ) {s : Ref System} {p : Ref Duration → Float}
    (hp : ∀ b ∈ w.listed s, w.progress (w.durationOf b) = .ok (p (w.durationOf b))) :
    ∃ r w', (tick s).perform w = (r, w') ∧ w.Answered w' s r := by
  cases hpolicy : (w.systems.get s).policy with
  | ignore | record =>
    have hq : (w.systems.get s).policy.isQuiet = true := by rw [hpolicy]; rfl
    obtain ⟨w', htick, h⟩ := ticked_tick w hq hp
    exact ⟨.ok (), w', htick, h.answered hq⟩
  | restart =>
    obtain ⟨w', htick, h⟩ := cycled_tick w hpolicy hp
    exact ⟨.ok (), w', htick, h.answered hpolicy⟩
  | clear =>
    obtain ⟨r, w', htick, h⟩ := cleared_forM_settle w
      (nodup_eraseDups ((w.listed s).map w.durationOf)) (listedOf_ne_nil w s) fun d _ b hb =>
        hp b (List.mem_filter.mp hb).1
    rw [← hpolicy] at htick
    exact ⟨r, w', htick, h.answered hpolicy⟩

end Act

namespace World

/-- A tick tells its callback of the completed bindings that it gets to, once each and in order,
whatever the callback does to the list, and fails exactly if there are others to take off it. -/
theorem callbacks_told_of_reached (w : World κ) (s : Ref System)
    (hp : ∀ b ∈ w.listed s, (w.progress (w.durationOf b)).isOk = true) :
    let c : Call κ := ⟨w, .onSystem s .tick⟩
    let policy := (w.systems.get s).policy
    c.reported =
      policy.told ((w.reached s).filter fun b => w.phase (w.durationOf b) = .completed) ∧
    c.outcome = (if w.reached s = w.leaving s then .ok .done else .error .notListed) ∧
    (policy ≠ .clear → w.reached s = w.leaving s) ∧
    (w.reached s = w.leaving s →
      c.reported.Perm
        (policy.told ((w.listed s).filter fun b => w.phase (w.durationOf b) = .completed)) ∧
      ∀ d, c.after.durations.get d =
        if (∃ b ∈ w.listed s, w.durationOf b = d) ∧ w.phase d = .completed then
          if policy = .restart then w.afresh d
          else { w.durations.get d with timer := (w.timer d).consumed }
        else w.durations.get d) := by
  intro c policy
  obtain ⟨r, w', htick, h⟩ := Act.answered_tick w fun b hb => progress_eq_reading (hp b hb)
  have hstep : w.step (.onSystem s .tick) = (r.map fun _ => .done, w') := by
    rw [step_onSystem_tick, htick]
  have hafter : c.after = w' := congrArg Prod.snd hstep
  have hreported : c.reported =
      policy.told ((w.reached s).filter fun b => w.phase (w.durationOf b) = .completed) :=
    Call.reported_of_append (by rw [hafter]; exact h.reports)
  have houtcome : c.outcome = r.map fun _ => .done := congrArg Prod.fst hstep
  refine ⟨hreported, ?_, fun hne => w.reached_of_ne_clear s hne, fun hall => ⟨?_, fun d => ?_⟩⟩
  · rw [houtcome, h.ends]
    split <;> rfl
  · rw [hreported, hall, filter_completed_leaving]
    exact policy.told_perm ((w.perm_tickOrder s).filter _)
  · have hok : r = .ok () := by rw [h.ends, if_pos hall]
    rw [hafter]
    exact h.durations hok d

/-- A world in which a system that clears lists a binding of a duration that has just passed, and
one of the duration `d`, which is the same or a longer one. -/
def sweep (d : Ref Duration) : World Unit :=
  World.empty.after [.newClock 0, .newLength (.whole "short" 100), .newLength (.whole "long" 200),
    .newDuration { length := some ⟨0⟩, smoothing := .named .linear, clock := .manual ⟨0⟩ },
    .newDuration { length := some ⟨1⟩, smoothing := .named .linear, clock := .manual ⟨0⟩ },
    .newTransition ⟨0⟩ 0.0 1.0, .newTransition d 0.0 1.0, .newTarget,
    .newBinding ⟨0⟩ "x" ⟨0⟩, .newBinding ⟨0⟩ "y" ⟨1⟩, .newSystem .clear,
    .onSystem ⟨0⟩ (.add ⟨0⟩), .onSystem ⟨0⟩ (.add ⟨1⟩),
    .onDuration ⟨0⟩ .start, .onDuration ⟨1⟩ .start, .onClock ⟨0⟩ (.advance 100)]

/-- While the longer duration runs, the list can be emptied. -/
theorem callbacks_told_of_reached_sweep :
    let c : Call Unit := ⟨sweep ⟨1⟩, .onSystem ⟨0⟩ .tick⟩
    c.outcome = .ok .done ∧ c.reported = [⟨0⟩] := by
  intro c
  obtain ⟨hreported, houtcome, -⟩ := callbacks_told_of_reached (sweep ⟨1⟩) ⟨0⟩ (by decide)
  exact ⟨houtcome.trans (if_pos (by decide)), hreported.trans (by decide)⟩

/-- Where two bindings of one duration have completed, a callback that empties the list is told of
the first one only: the tick fails, the second one is gone from the list, and the completion is
consumed. -/
theorem untold_completion_sweep :
    let c : Call Unit := ⟨sweep ⟨0⟩, .onSystem ⟨0⟩ .tick⟩
    (∀ b ∈ c.before.listed ⟨0⟩, (c.before.progress (c.before.durationOf b)).isOk = true) ∧
      c.before.listed ⟨0⟩ = [⟨0⟩, ⟨1⟩] ∧
      (∀ b ∈ c.before.listed ⟨0⟩, c.before.phase (c.before.durationOf b) = .completed) ∧
      c.outcome = .error .notListed ∧ c.reported = [⟨0⟩] ∧ c.after.phase ⟨0⟩ = .idle := by
  refine ⟨by decide, by decide, by decide, rfl, by decide, by decide⟩

end World

end Tween
