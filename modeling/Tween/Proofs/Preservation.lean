import Tween.Proofs.Emission
import Tween.Proofs.Failing

namespace Tween

variable {κ α β : Type}

namespace Act

open World

namespace Keeps

variable {P : World κ → Prop} {q : Ref Duration} {r : Ref Transition}

theorem pure (a : α) : Keeps P (pure a) :=
  fun _ hw => hw

theorem reply {act : Act κ α} (h : Keeps P act) (f : α → β) :
    Keeps P (act >>= fun a => Pure.pure (f a)) :=
  h.bind fun a => .pure (f a)

section

variable (htimer : ∀ w f, P w → P (w.withTimer q f))
  (hset : ∀ w f, (∀ t : Transition, (f t).duration = t.duration) → P w →
    P { w with transitions := w.transitions.modify r f })
  (hlook : ∀ w count, P w → P (w.noticed count))

include htimer in
theorem start : Keeps P (start q) := by
  intro w hw
  rw [perform_start]
  exact htimer w (·.start (w.nowOf q)) hw

include hset in
theorem setEnds (start finish : Float) : Keeps P (setEnds r start finish) :=
  fun w hw => hset w (fun t => { t with start, finish }) (fun _ => rfl) hw

include hset in
theorem flip : Keeps P (flip r) :=
  fun w hw => hset w (fun t => { t with start := t.finish, finish := t.start }) (fun _ => rfl) hw

include hlook

theorem of_looks {act : Act κ α} (h : Looks act) : Keeps P act := by
  intro w hw
  obtain ⟨count, hcount⟩ := h w
  rw [hcount]
  exact hlook w count hw

theorem looked (w : World κ) (d : Ref Duration) (count : Nat) (hw : P w) : P (w.looked d count) := by
  obtain ⟨n, hn⟩ := w.exists_looked_eq d count
  rw [hn]
  exact hlook w n hw

include htimer in
theorem reverse : Keeps P (reverse q) := by
  intro w hw
  rw [perform_reverse]
  exact htimer _ (·.reverse (w.nowOf q) (w.length q)) (looked hlook w q 1 hw)

include htimer in
theorem consume : Keeps P (consume q) := by
  intro w hw
  rw [perform_consume]
  split
  · exact htimer _ _ (looked hlook w q _ hw)
  · exact looked hlook w q _ hw

include htimer in
theorem poll : Keeps P (poll q) := by
  intro w hw
  rw [perform_poll]
  split
  · exact consume htimer hlook _ (looked hlook w q _ hw)
  · exact looked hlook w q _ hw

include hset in
theorem retarget (finish : Float) : Keeps P (retarget r finish) :=
  (of_looks hlook (.value r)).bind fun start => setEnds hset start finish

include hset in
theorem restartSame : Keeps P (restartSame r) :=
  (of_looks hlook (.value r)).bind fun start w hw =>
    hset w (fun t => { t with start }) (fun _ => rfl) hw

end

theorem animate {a : Animation} (htimer : ∀ w f, P w → P (w.withTimer a.duration f))
    (hset : ∀ w f, (∀ t : Transition, (f t).duration = t.duration) → P w →
      P { w with transitions := w.transitions.modify a.transition f })
    (hlook : ∀ w count, P w → P (w.noticed count)) (values : List Float) :
    Keeps P (animate a values) := by
  match values with
  | [] => exact (restartSame hset hlook).bind fun _ => start htimer
  | [finish] => exact (retarget hset hlook finish).bind fun _ => start htimer
  | [first, finish] => exact (setEnds hset first finish).bind fun _ => start htimer
  | _ :: _ :: _ :: _ => exact fun _ hw => hw

/-- An operation on a transition changes nothing but its ends, up to notices. -/
theorem transitionOp (op : TransitionOp)
    (hset : ∀ w f, (∀ t : Transition, (f t).duration = t.duration) → P w →
      P { w with transitions := w.transitions.modify r f })
    (hlook : ∀ w count, P w → P (w.noticed count)) : Keeps P (transitionOp r op) := by
  cases op with
  | value => exact .reply (of_looks hlook (.value r)) _
  | setEnds start finish => exact (setEnds hset start finish).reply _
  | retarget finish => exact (retarget hset hlook finish).reply _
  | restartSame => exact (restartSame hset hlook).reply _
  | flip => exact (flip hset).reply _
  | shown | start | finish => exact fun _ hw => hw

section Settling

variable {s : Ref System} {report : Ref Binding → Act κ Unit}
  (hjournal : ∀ w j, P w → P { w with journal := j })
  (hsystems : ∀ w x, P w → P { w with systems := x })
  (htargets : ∀ w x, P w → P { w with targets := x })

include hjournal in
theorem log (event : Event) : Keeps P (log event) :=
  fun w hw => hjournal w _ hw

include hsystems in
theorem setMembers (bs : List (Ref Binding)) : Keeps P (setMembers s bs) :=
  fun w hw => hsystems w _ hw

include hsystems in
theorem delist (b : Ref Binding) : Keeps P (delist s b) := by
  refine .get_bind fun w hw => ?_
  dsimp only
  split
  · exact setMembers hsystems _ w hw
  · exact hw

include hsystems in
theorem retire {b : Ref Binding} (hreport : Keeps P (report b)) (due : Bool) :
    Keeps P (retire s report due b) := by
  refine (delist hsystems b).bind fun _ => ?_
  split
  · exact hreport
  · exact fun _ hw => hw

include hjournal htargets in
theorem update (b : Ref Binding) : Keeps P (update b) := by
  have hlook : ∀ w count, P w → P (w.noticed count) := fun w _ hw => hjournal w _ hw
  have hwrite : ∀ t field y, Keeps P (write t field y) := fun t field y =>
    Keeps.bind (fun w hw => htargets w _ hw) fun _ => log hjournal _
  exact .get_bind fun w hw => (of_looks hlook (.value _)).bind (fun _ => hwrite _ _ _) w hw

include hjournal hsystems

include htargets in
/-- Settling writes, lists and notes, moves the duration of the group, and reports. -/
theorem settle {g : Group} (hreport : ∀ b ∈ g.members, Keeps P (report b))
    (htimer : ∀ w f, P w → P (w.withTimer g.duration f)) : Keeps P (settle s report g) := by
  have hlook : ∀ w count, P w → P (w.noticed count) := fun w _ hw => hjournal w _ hw
  refine .bind (.forM fun b _ => update hjournal htargets b) fun _ => ?_
  refine (of_looks hlook (.phase _)).bind fun phase => ?_
  split
  · exact (consume htimer hlook).bind fun due =>
      .forM fun b hb => retire hsystems (hreport b hb) due
  · exact fun _ hw => hw

/-- A policy notes and lists, and moves the duration of the binding that it follows. -/
theorem follow {b : Ref Binding} (hfollow : ∀ w, P w → w.durationOf b = q)
    (htimer : ∀ w f, P w → P (w.withTimer q f)) (policy : Policy) : Keeps P (follow s policy b) := by
  cases policy with
  | ignore => exact fun _ hw => hw
  | record => exact log hjournal _
  | restart =>
    refine (log hjournal _).bind fun _ => .get_bind fun w hw => ?_
    rw [hfollow w hw]
    exact (start htimer).bind (fun _ => .get_bind fun v hv => setMembers hsystems _ v hv) w hw
  | clear => exact (log hjournal _).bind fun _ => setMembers hsystems _

include htargets in
/-- A tick writes, lists and notes, and moves the durations of the bindings that are listed, also
where it lists one again. What each binding follows has to stay. -/
theorem tick {w : World κ} (hfollow : ∀ v, P v → v.durationOf = w.durationOf)
    (htimer : ∀ b ∈ w.listed s, ∀ v f, P v → P (v.withTimer (w.durationOf b) f)) (h : P w) :
    P ((tick s).perform w).2 := by
  refine Keeps.forM (P := P) (fun g hg => ?_) w h
  obtain ⟨d, hd, rfl⟩ := List.mem_map.mp hg
  obtain ⟨b, hb, rfl⟩ := List.mem_map.mp (List.mem_eraseDups.mp hd)
  refine settle hjournal hsystems htargets (fun a ha => ?_) (htimer b hb)
  exact follow hjournal hsystems (fun v hv => congrFun (hfollow v hv) a)
    (htimer a (List.mem_filter.mp ha).1) _

end Settling

end Keeps

end Act

end Tween
