import Tween.Proofs.Lanes
import Tween.Proofs.Preservation

namespace Tween

variable {κ : Type}

namespace Gallery

open World Act

def Lane.counting (lane : Lane) (counts : Bool) : Lane :=
  { lane with completed := lane.completed + counts.toNat }

theorem countCompletion_eq_none {r : Ref Transition} {lanes : List Lane}
    (h : ∀ lane ∈ lanes, lane.transition ≠ r) : countCompletion r lanes = none := by
  induction lanes with
  | nil => rfl
  | cons lane rest ih =>
    rw [List.forall_mem_cons] at h
    rw [countCompletion, if_neg h.1, ih h.2]
    rfl

theorem countCompletion_eq_some {lanes : List Lane} (h : (lanes.map Lane.transition).Nodup)
    {lane : Lane} (hlane : lane ∈ lanes) :
    countCompletion lane.transition lanes = some (lane.counting true,
      lanes.map fun a => a.counting (lane.transition = a.transition)) := by
  induction lanes with
  | nil => cases hlane
  | cons a rest ih =>
    rw [List.map_cons, List.nodup_cons] at h
    rcases List.mem_cons.mp hlane with rfl | hlane
    · have hrest : rest.map (fun a => a.counting (lane.transition = a.transition)) = rest := by
        refine (List.map_congr_left fun a ha => ?_).trans (List.map_id rest)
        have hne : lane.transition ≠ a.transition := fun heq =>
          h.1 (heq ▸ List.mem_map_of_mem ha)
        rw [decide_eq_false hne]
        rfl
      rw [countCompletion, if_pos rfl, List.map_cons, hrest, decide_eq_true rfl]
      rfl
    · have hne : lane.transition ≠ a.transition := fun heq =>
        h.1 (heq ▸ List.mem_map_of_mem hlane)
      rw [countCompletion, if_neg hne.symm, ih h.2 hlane, List.map_cons, decide_eq_false hne]
      rfl

end Gallery

namespace World

open Gallery Act

theorem Emits.withClient {w w' : World κ} {as : List Stroke} {rs : List (Ref Binding)}
    (h : w.Emits w' as rs) (c : κ) :
    ({ w with client := c } : World κ).Emits { w' with client := c } as rs where
  frame := by
    rw [h.frame]
  targets := h.targets
  writes := h.writes
  reports := h.reports

theorem Emits.noted (w : World κ) (notice : Notice) :
    w.Emits { w with journal := w.journal ++ [.noted notice] } [] [] where
  frame := rfl
  targets := rfl
  writes := by simp [World.writes]
  reports := by simp [World.reports]

/-- The world `w'` is `w` once some bindings have been taken off the list and the completions that
they report have been counted. -/
structure Retired (w w' : World Hall) (bs : List (Ref Binding)) (counts : Lane → Bool) : Prop where
  emits : w.Emits { w' with client := w.client } [] []
  durations : w'.durations = w.durations
  relisted : w.Relisted w' w.client.system (w.members.filter fun b => b ∉ bs)
  client : w'.client =
    { w.client with lanes := w.client.lanes.map fun lane => lane.counting (counts lane) }

variable {w w' w₁ w₂ : World Hall}

theorem map_counting_eq_self {lanes : List Lane} {counts : Lane → Bool}
    (h : ∀ lane ∈ lanes, counts lane = false) :
    (lanes.map fun lane => lane.counting (counts lane)) = lanes := by
  refine (List.map_congr_left fun lane hlane => ?_).trans (List.map_id _)
  rw [h lane hlane]
  rfl

namespace Retired

variable {bs cs : List (Ref Binding)} {counts : Lane → Bool}

theorem nil (w : World Hall) : Retired w w [] fun _ => false where
  emits := .refl w
  durations := rfl
  relisted := by
    rw [List.filter_eq_self.mpr fun b _ => decide_eq_true List.not_mem_nil]
    exact .refl w _
  client := by rw [map_counting_eq_self fun _ _ => rfl]

theorem congr {counts' : Lane → Bool} (h : Retired w w' bs counts)
    (hcounts : ∀ lane ∈ w.client.lanes, counts lane = counts' lane) : Retired w w' bs counts' where
  emits := h.emits
  durations := h.durations
  relisted := h.relisted
  client := by
    rw [h.client, List.map_congr_left fun lane hlane => by rw [hcounts lane hlane]]

theorem members (h : Retired w w' bs counts) : w'.members = w.members.filter fun b => b ∉ bs := by
  have := h.relisted.listed w.client.system
  rw [if_pos rfl] at this
  rw [World.members, h.client]
  exact this

theorem bindings (h : Retired w w' bs counts) : w'.bindings = w.bindings := by
  have := congrArg World.bindings h.emits.frame
  exact this

theorem follows (h : Retired w w' bs counts) (lane : Lane) (b : Ref Binding) :
    w'.follows lane b = w.follows lane b := by
  rw [World.follows, h.bindings, World.follows]

theorem isForeign (h : Retired w w' bs counts) : w'.isForeign = w.isForeign := by
  funext b
  rw [World.isForeign, h.client, List.any_map, World.isForeign]
  exact congrArg (!w.client.lanes.any ·) (funext fun lane => h.follows _ b)

theorem trans (h : Retired w w₁ bs counts) (h' : Retired w₁ w₂ cs fun _ => false) :
    Retired w w₂ (bs ++ cs) counts where
  emits := by
    have := h.emits.trans (h'.emits.withClient w.client)
    rwa [List.append_nil] at this
  durations := h'.durations.trans h.durations
  relisted := by
    have hsystem : w₁.client.system = w.client.system := by rw [h.client]
    have := h.relisted.trans (hsystem ▸ h'.relisted)
    rw [h.members, List.filter_filter] at this
    rw [List.filter_congr fun b _ => ?_]
    · exact this
    · simp only [List.mem_append, not_or, Bool.decide_and, Bool.and_comm]
  client := by rw [h'.client, map_counting_eq_self fun _ _ => rfl, h.client]

end Retired

end World

namespace Act

open World Gallery

variable {w w' : World Hall} {d : Ref Duration} {b : Ref Binding}

theorem perform_complete (h : (w.client.lanes.map Lane.transition).Nodup) {lane : Lane}
    (hlane : lane ∈ w.client.lanes) (hb : w.follows lane b = true) :
    (complete b).perform w = (.ok (), { w with
      journal := w.journal ++ [.noted (.finished lane.title (w.orbX lane))]
      client := { w.client with lanes := w.client.lanes.map fun a => a.counting (w.follows a b) } }) := by
  have hcount := countCompletion_eq_some h hlane
  rw [← show (w.bindings.get b).transition = lane.transition from of_decide_eq_true hb] at hcount
  rw [complete, perform_get_bind]
  dsimp only
  rw [hcount]
  rfl

theorem perform_complete_foreign (hb : w.isForeign b = true) :
    (complete b).perform w = (.error (.foreignBinding (w.bindings.get b).field), w) := by
  rw [complete, perform_get_bind]
  dsimp only
  rw [countCompletion_eq_none fun lane hlane heq => ?_]
  · rfl
  · have := isForeign_iff.mp hb lane hlane
    rw [follows, heq, decide_eq_true rfl] at this
    cases this

theorem retired_delist (hnodup : w.members.Nodup) (hb : b ∈ w.members) :
    ∃ w', (delist w.client.system b).perform w = (.ok (), w') ∧
      w' = { w with systems := w'.systems } ∧ Retired w w' [b] fun _ => false := by
  obtain ⟨w', hdelist, hframe, hlist⟩ := perform_delist w hb
  refine ⟨w', hdelist, hframe, ?_, by rw [hframe], ?_, ?_⟩
  · rw [hframe]
    exact (Emits.refl w).congr rfl
  · have hothers : (w.members.filter fun c => c ∉ [b]) = w.members.erase b := by
      rw [hnodup.erase_eq_filter]
      exact List.filter_congr fun c _ => by simp [bne, beq_eq_decide]
    rw [hothers]
    exact hlist
  · rw [map_counting_eq_self fun _ _ => rfl, hframe]

theorem retired_retire (hnodup : w.members.Nodup)
    (hlanes : (w.client.lanes.map Lane.transition).Nodup) (hb : b ∈ w.members)
    (hhome : w.isForeign b = false) :
    ∃ w', (retire w.client.system complete true b).perform w = (.ok (), w') ∧
      Retired w w' [b] (w.follows · b) := by
  obtain ⟨v, hdelist, hframe, hretired⟩ := retired_delist hnodup hb
  have hclient : v.client = w.client := by rw [hframe]
  obtain ⟨lane, hlane, hfollows⟩ := isForeign_eq_false_iff.mp hhome
  rw [retire, perform_bind_ok _ hdelist, if_pos rfl,
    perform_complete (hclient ▸ hlanes) (hclient ▸ hlane) (hretired.follows lane b ▸ hfollows)]
  refine ⟨_, rfl, ?_, hretired.durations, hretired.relisted, ?_⟩
  · have := hretired.emits.trans (.noted _ (.finished lane.title (v.orbX lane)))
    rwa [List.append_nil] at this
  · rw [hclient]
    simp only [hretired.follows]

theorem retired_retire_foreign (hnodup : w.members.Nodup) (hb : b ∈ w.members)
    (hforeign : w.isForeign b = true) :
    ∃ w', (retire w.client.system complete true b).perform w =
        (.error (.foreignBinding (w.bindings.get b).field), w') ∧
      Retired w w' [b] fun _ => false := by
  obtain ⟨v, hdelist, hframe, hretired⟩ := retired_delist hnodup hb
  rw [retire, perform_bind_ok _ hdelist, if_pos rfl,
    perform_complete_foreign (hretired.isForeign ▸ hforeign), hretired.bindings]
  exact ⟨v, rfl, hretired⟩

/-- Bindings of which only the first can belong to a lane are taken off the list and counted, as far
as the first foreign one. -/
theorem retired_forM_retire (hnodup : w.members.Nodup)
    (hlanes : (w.client.lanes.map Lane.transition).Nodup) {rest : List (Ref Binding)}
    (hmem : ∀ c ∈ b :: rest, c ∈ w.members) (hbs : (b :: rest).Nodup)
    (hrest : w.isForeign b = false → ∀ c ∈ rest, w.isForeign c = true) :
    ∃ r w', ((b :: rest).forM (retire w.client.system complete true)).perform w = (r, w') ∧
      Retired w w' (throughFirst w.isForeign (b :: rest)) (w.follows · b) ∧
      (r.isOk = true → ∀ c ∈ b :: rest, w.isForeign c = false) ∧
      ∀ fault, r = .error fault → ∃ c ∈ b :: rest, w.isForeign c = true ∧
        fault = .foreignBinding (w.bindings.get c).field := by
  rw [List.forall_mem_cons] at hmem
  rw [List.forM_eq_forM, List.forM_cons, throughFirst_cons]
  cases hf : w.isForeign b with
  | true =>
    obtain ⟨w', hfirst, hretired⟩ := retired_retire_foreign hnodup hmem.1 hf
    refine ⟨.error (.foreignBinding (w.bindings.get b).field), w', ?_,
      hretired.congr fun lane hlane => ?_, (nomatch ·), fun fault hr => ?_⟩
    · rw [perform_bind, hfirst]
    · exact (isForeign_iff.mp hf lane hlane).symm
    · cases hr
      exact ⟨b, List.mem_cons_self, hf, rfl⟩
  | false =>
    obtain ⟨w₁, hfirst, hretired⟩ := retired_retire hnodup hlanes hmem.1 hf
    rw [perform_bind_ok _ hfirst]
    cases rest with
    | nil => exact ⟨.ok (), w₁, rfl, hretired, fun _ => List.forall_mem_singleton.mpr hf,
        fun _ hr => nomatch hr⟩
    | cons c rest =>
      -- The walk ends with `c`, which is foreign.
      have hforeign := hrest hf c List.mem_cons_self
      have hsystem : w₁.client.system = w.client.system := by rw [hretired.client]
      have hc : c ∈ w₁.members := by
        rw [hretired.members, List.mem_filter, decide_eq_true_iff, List.mem_singleton]
        exact ⟨hmem.2 c List.mem_cons_self, fun heq =>
          (List.nodup_cons.mp hbs).1 (heq ▸ List.mem_cons_self)⟩
      obtain ⟨w₂, hsecond, hretired'⟩ :=
        retired_retire_foreign (hretired.members ▸ hnodup.filter _) hc (hretired.isForeign ▸ hforeign)
      rw [hretired.bindings, hsystem] at hsecond
      refine ⟨.error (.foreignBinding (w.bindings.get c).field), w₂, ?_, ?_, (nomatch ·),
        fun fault hr => ?_⟩
      · rw [List.forM_cons, perform_bind, hsecond]
      · rw [throughFirst_cons, hforeign]
        exact hretired.trans hretired'
      · cases hr
        exact ⟨c, List.mem_cons_of_mem b List.mem_cons_self, hforeign, rfl⟩

end Act

end Tween
