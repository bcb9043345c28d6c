import Tween.Proofs.Abreast
import Tween.Proofs.Seconds
import Tween.Proofs.Twins

namespace Tween

namespace Description

open Text

def withLength (d : Description) (length : Int) : Description :=
  { d with length }

theorem lengthRead?_clampLength (length : Int) :
    lengthRead? (Gallery.clampLength length) = some (Gallery.clampLength length) := by
  have hnonneg := Gallery.clampLength_nonneg length
  have hlt : (Gallery.clampLength length).natAbs < 10 ^ 12 := by
    unfold Gallery.clampLength Gallery.minLength Gallery.maxLength
    omega
  rw [lengthRead?, readLength?_of_lt hlt, Int.natAbs_of_nonneg hnonneg]

theorem withRead_clampLength (d : Description) (length : Int) :
    d.withRead (lengthRead? (Gallery.clampLength length)) =
      d.withLength (Gallery.clampLength length) := by
  rw [lengthRead?_clampLength]
  rfl

/-- What the gallery writes for a lane is read as the length it means and the easing of the lane. -/
theorem Named.read?_withLength_clampLength {d : Description} (h : d.Named) (length : Int) :
    read? (Gallery.withLength (Gallery.clampLength length) d.easingName) =
      .ok (some (d.withLength (Gallery.clampLength length))) := by
  rw [h.read?_withLength (Gallery.clampLength_nonneg length), lengthRead?_clampLength]
  rfl

end Description

namespace Gallery

open World Act

variable {w₀ w : World Hall}

theorem clampLength_mem (length : Int) :
    minLength ≤ clampLength length ∧ clampLength length ≤ maxLength := by
  unfold clampLength minLength maxLength
  omega

/-- A new length reaches every lane, without a warning, and changes nothing but lengths. -/
theorem exists_setLength
    (hnamed : ∀ lane ∈ w.client.lanes, (w.descriptions.get lane.setting).value.Named)
    (length : Int) : ∃ descriptions, (setLength length).perform w = (.ok (), { w with
        descriptions
        client := { w.client with length := clampLength length }
        journal := w.journal ++ [.noted (.lengthSet (clampLength length))] }) ∧
      ∀ r, (descriptions.get r).value = if r ∈ w.client.lanes.map Lane.setting then
          (w.descriptions.get r).value.withLength (clampLength length)
        else (w.descriptions.get r).value := by
  let u : World Hall := { w with client := { w.client with length := clampLength length } }
  obtain ⟨v, hrun, hframe, hjournal, hget⟩ :=
    exists_forM_lengthenLane (w := u) (clampLength_nonneg length) hnamed
  have hread := Description.lengthRead?_clampLength length
  refine ⟨v.descriptions, ?_, fun r => ?_⟩
  · have hset : (setLength length).perform w =
        (note (.lengthSet (clampLength length)) : Act Hall Unit).perform v := by
      change ((w.client.lanes.forM (lengthenLane (clampLength length)) >>= fun _ =>
        note (.lengthSet (clampLength length))).perform u) = _
      rw [perform_bind_ok _ hrun]
    have hjournal' : v.journal = w.journal := hjournal (by rw [hread]; rfl)
    rw [hset]
    change (Except.ok (), { v with journal := v.journal ++ [_] }) = _
    rw [hjournal', hframe]
  · rw [hget, Description.withRead_clampLength]

def Move.configures : Move → Bool
  | .configureLane .. => true
  | _ => false

/-- In `v` the settings of the lanes and the length of the gallery are what they are in `w`. -/
def Unconfigured (w v : World Hall) : Prop :=
  (∀ lane ∈ w.client.lanes, v.descriptions.get lane.setting = w.descriptions.get lane.setting) ∧
    v.client.length = w.client.length

theorem unconfigured_launch (w : World Hall) : Keeps (Unconfigured w) launch := by
  refine .get_bind fun v hv => Keeps.forM (fun lane _ => ?_) v hv
  have hlook : ∀ u count, Unconfigured w u → Unconfigured w (u.noticed count) := fun _ _ hu => hu
  have htimer : ∀ u f, Unconfigured w u → Unconfigured w (u.withTimer lane.duration f) :=
    fun _ _ hu => hu
  have hbind : Keeps (Unconfigured w) (bindLane lane) := fun u hu => by
    rw [perform_bindLane]
    dsimp only
    split <;> exact hu
  have hsent : ∀ current target, Keeps (Unconfigured w) (do
      animate lane.animation [current, target]
      bindLane lane) := fun current target =>
    (Keeps.animate htimer (fun _ _ _ hu => hu) hlook [current, target]).bind fun _ => hbind
  refine Keeps.bind (.of_looks hlook (.value _)) fun current => .get_bind fun u hu => ?_
  dsimp only
  split
  · exact (Keeps.reverse htimer hlook).bind (fun _ => hsent _ _) u hu
  · exact hsent _ _ u hu

theorem unconfigured_reverseAll (w : World Hall) : Keeps (Unconfigured w) reverseAll := by
  refine .get_bind fun v hv => Keeps.forM (fun lane _ => ?_) v hv
  refine Keeps.bind (.of_looks (fun _ _ hu => hu) (.phase _)) fun phase => ?_
  split
  · exact Keeps.reverse (fun _ _ hu => hu) (fun _ _ hu => hu)
  · exact fun u hu => hu

theorem unconfigured_tick (h : w.Tidy) (ms : Int) : Unconfigured w (move w (.tick ms)).2 := by
  have hkept := Kept.advanceClock (m := .tick ms) h ms
  have hframe := frame_advanceClock w ms
  change Unconfigured w ((advanceClock ms >>= fun _ => tick >>= fun _ => pure Reply.done).perform w).2
  rw [perform_bind]
  rcases hclock : (advanceClock ms).perform w with ⟨fault | _, v⟩ <;>
    rw [hclock] at hkept hframe <;> dsimp only at hframe ⊢
  · rw [hframe]
    exact ⟨fun _ _ => rfl, rfl⟩
  · obtain ⟨r, w', htick, hhandled, -⟩ := handled_tick hkept.tidy
    rw [perform_bind_pure, htick]
    refine ⟨fun _ _ => ?_, ?_⟩
    · rw [hhandled.descriptions, hframe]
    · rw [hhandled.client, hframe]

theorem unconfigured_move (h : w.Tidy) {m : Move} (hm : m.configures = false)
    (hlength : ∀ length, m ≠ .setLength length) : Unconfigured w (move w m).2 := by
  have hself : Unconfigured w w := ⟨fun _ _ => rfl, rfl⟩
  cases m with
  | launch =>
    rw [move_of_make launch rfl]
    exact unconfigured_launch w w hself
  | reverse =>
    rw [move_of_make reverseAll rfl]
    exact unconfigured_reverseAll w w hself
  | setLength length => exact absurd rfl (hlength length)
  | reverseLane i =>
    change Unconfigured w ((onLane i _).perform w).2
    rw [onLane, perform_get_bind]
    split
    · exact (Keeps.reverse (P := Unconfigured w) (fun _ _ hu => hu) fun _ _ hu => hu).reply _ w hself
    · exact hself
  | configureLane => cases hm
  | bindForeign foreign =>
    rw [move_of_make (bindForeign foreign) rfl]
    have hgrown := grown_bindForeign w foreign
    exact ⟨fun lane hlane => hgrown.descriptions.get (h.wired.known lane hlane).2.2,
      congrArg Hall.length hgrown.client⟩
  | advance ms =>
    rw [move_of_make (advanceClock ms) rfl, frame_advanceClock]
    exact hself
  | reset now =>
    rw [move_of_make (setClock now) rfl, frame_setClock]
    exact hself
  | tick ms => exact unconfigured_tick h ms

/-- The lanes of `w` are those of `w₀`, with the easings that they had there and the length of the
gallery, which is none but the gallery gives. -/
structure Coherent (w₀ w : World Hall) : Prop where
  tidy : w.Tidy
  bounds : minLength ≤ w.client.length ∧ w.client.length ≤ maxLength
  lanes : w.client.lanes.map (fun lane => (lane.title, lane.setting)) =
    w₀.client.lanes.map fun lane => (lane.title, lane.setting)
  value : ∀ lane ∈ w₀.client.lanes, (w.descriptions.get lane.setting).value =
    (w₀.descriptions.get lane.setting).value.withLength w.client.length

namespace Coherent

variable (h : Coherent w₀ w)
include h

theorem exists_base {lane : Lane} (hlane : lane ∈ w.client.lanes) :
    ∃ base ∈ w₀.client.lanes, base.setting = lane.setting := by
  have hmem := List.mem_map_of_mem (f := fun lane : Lane => (lane.title, lane.setting)) hlane
  rw [h.lanes] at hmem
  obtain ⟨base, hbase, heq⟩ := List.mem_map.mp hmem
  exact ⟨base, hbase, congrArg Prod.snd heq⟩

theorem named (h₀ : ∀ lane ∈ w₀.client.lanes, (w₀.descriptions.get lane.setting).value.Named)
    {lane : Lane} (hlane : lane ∈ w.client.lanes) :
    (w.descriptions.get lane.setting).value.Named := by
  obtain ⟨base, hbase, heq⟩ := h.exists_base hlane
  rw [← heq, h.value base hbase]
  exact h₀ base hbase

theorem map_eq : w.client.lanes.map (fun lane => (lane.title, (w.descriptions.get lane.setting).value)) =
    w₀.client.lanes.map fun lane =>
      (lane.title, (w₀.descriptions.get lane.setting).value.withLength w.client.length) := by
  have hpairs := congrArg (List.map fun p => (p.1, (w.descriptions.get p.2).value)) h.lanes
  rw [List.map_map, List.map_map] at hpairs
  refine hpairs.trans (List.map_congr_left fun lane hlane => ?_)
  exact congrArg (Prod.mk lane.title) (h.value lane hlane)

theorem setting_mem {lane : Lane} (hlane : lane ∈ w₀.client.lanes) :
    lane.setting ∈ w.client.lanes.map Lane.setting := by
  have hmem := List.mem_map_of_mem (f := fun lane : Lane => (lane.title, lane.setting)) hlane
  rw [← h.lanes] at hmem
  obtain ⟨other, hother, heq⟩ := List.mem_map.mp hmem
  exact List.mem_map.mpr ⟨other, hother, congrArg Prod.snd heq⟩

theorem move (h₀ : ∀ lane ∈ w₀.client.lanes, (w₀.descriptions.get lane.setting).value.Named)
    {m : Move} (hm : m.configures = false) : Coherent w₀ (Gallery.move w m).2 := by
  have hmove := accounted_move h.tidy m
  have hlanes : (Gallery.move w m).2.client.lanes.map (fun lane => (lane.title, lane.setting)) =
      w.client.lanes.map fun lane => (lane.title, lane.setting) := by
    rw [hmove.lanes, List.map_map]
    rfl
  by_cases hlength : ∃ length, m = .setLength length
  · obtain ⟨length, rfl⟩ := hlength
    obtain ⟨descriptions, hrun, hget⟩ := exists_setLength (fun lane => h.named h₀) length
    refine ⟨hmove.tidy, ?_, hlanes.trans h.lanes, fun lane hlane => ?_⟩
    · rw [move_of_make (setLength length) rfl, hrun]
      exact clampLength_mem length
    · rw [move_of_make (setLength length) rfl, hrun]
      dsimp only
      rw [hget, if_pos (h.setting_mem hlane), h.value lane hlane]
      rfl
  · obtain ⟨hdescriptions, hsame⟩ :=
      unconfigured_move h.tidy hm fun length heq => hlength ⟨length, heq⟩
    refine ⟨hmove.tidy, hsame ▸ h.bounds, hlanes.trans h.lanes, fun lane hlane => ?_⟩
    obtain ⟨other, hother, heq⟩ := List.mem_map.mp (h.setting_mem hlane)
    rw [← heq, hdescriptions other hother, hsame, heq, h.value lane hlane]

end Coherent

theorem coherent_moves (h₀ : ∀ lane ∈ w₀.client.lanes, (w₀.descriptions.get lane.setting).value.Named)
    (h : Coherent w₀ w) {ms : List Move} (hms : ∀ m ∈ ms, m.configures = false) :
    Coherent w₀ (moves w ms) :=
  moves_keep (P := Coherent w₀) (fun m hm _ hv => hv.move h₀ (hms m hm)) h

theorem length_opened (clock : Option Int) : (opened clock).client.length = defaultLength := by
  obtain ⟨v, lanes, c, heq, -⟩ :=
    opened_induction (P := fun _ _ => True) clock (fun _ _ => trivial) fun _ _ _ _ _ _ _ _ _ => trivial
  rw [heq]

/-- A new gallery is coherent, and its lanes have easings with names that can be read. -/
theorem coherent_opened (clock : Option Int) : Coherent (opened clock) (opened clock) ∧
    ∀ lane ∈ (opened clock).client.lanes,
      ((opened clock).descriptions.get lane.setting).value.Named := by
  obtain ⟨c, hopened⟩ := exists_waiting_opened clock
  refine ⟨⟨hopened.tidy, ?_, rfl, fun lane hlane => ?_⟩, fun lane hlane =>
    (hopened.keeping lane hlane).named⟩
  · rw [length_opened]
    decide
  · have hlength := (hopened.keeping lane hlane).length
    rw [length_opened, Description.withLength, ← show _ = defaultLength from hlength]

/-- As long as no lane is configured by a text of its own, every lane has the length of the gallery
and the easing with which it was opened, and takes every new length without a warning. -/
theorem lengths_stay_coherent (clock : Option Int) (ms : List Move)
    (hms : ∀ m ∈ ms, m.configures = false) :
    let w := moves (opened clock) ms
    minLength ≤ w.client.length ∧ w.client.length ≤ maxLength ∧
    w.client.lanes.map (fun lane => (lane.title, (w.descriptions.get lane.setting).value)) =
      (opened clock).client.lanes.map (fun lane => (lane.title,
        { ((opened clock).descriptions.get lane.setting).value with length := w.client.length })) ∧
    ∀ length, let n := clampLength length
      (∀ lane ∈ w.client.lanes, ((configureLane lane (withLength n
        (w.descriptions.get lane.setting).value.easingName)).perform w).1 = .ok true) ∧
      ∃ descriptions, move w (.setLength length) = (.ok .done, { w with
          descriptions
          client := { w.client with length := n }
          journal := w.journal ++ [.noted (.lengthSet n)] }) ∧
        (∀ lane ∈ w.client.lanes, (descriptions.get lane.setting).value =
          { (w.descriptions.get lane.setting).value with length := n }) ∧
        ∀ r, r ∉ w.client.lanes.map Lane.setting →
          (descriptions.get r).value = (w.descriptions.get r).value := by
  intro w
  obtain ⟨hopened, hnamed⟩ := coherent_opened clock
  have hcoherent : Coherent (opened clock) w := coherent_moves hnamed hopened hms
  refine ⟨hcoherent.bounds.1, hcoherent.bounds.2, hcoherent.map_eq, fun length => ?_⟩
  have hlanes : ∀ lane ∈ w.client.lanes, (w.descriptions.get lane.setting).value.Named :=
    fun lane => hcoherent.named hnamed
  obtain ⟨descriptions, hrun, hget⟩ := exists_setLength hlanes length
  refine ⟨fun lane hlane => ?_, descriptions, ?_, fun lane hlane => ?_, fun r hr => ?_⟩
  · rw [configureLane, perform_setDescriptionText,
      (hlanes lane hlane).read?_withLength_clampLength length]
  · rw [move_of_make (setLength length) rfl, hrun]
    rfl
  · rw [hget, if_pos (List.mem_map_of_mem hlane)]
    rfl
  · rw [hget, if_neg hr]

/-- A gallery in flight that has been given lengths out of bounds on both sides. -/
def stretched : World Hall :=
  moves (opened (some 0)) [.launch, .tick 300, .setLength (-7), .reverse, .setLength 5000, .tick 100]

/-- All lanes have the longest length and the easings they were opened with, and take another
length. -/
theorem lengths_stay_coherent_stretched :
    stretched.client.lanes.map (fun lane =>
      (stretched.descriptions.get lane.setting).value.easingName) =
        ["linear", "circle", "sigmoid", "easeOutElastic", "cubic-bezier 0.25 0.1 0.25 1.0"] ∧
      stretched.client.lanes.map (fun lane =>
        (stretched.descriptions.get lane.setting).value.length) = [3000, 3000, 3000, 3000, 3000] ∧
      (move stretched (.setLength 450)).1 = .ok .done ∧
      (move stretched (.setLength 450)).2.notices = stretched.notices ++ [.lengthSet 450] := by
  have hlength : stretched.client.length = 3000 := by decide +kernel
  have hcoherent := lengths_stay_coherent (some 0)
    [.launch, .tick 300, .setLength (-7), .reverse, .setLength 5000, .tick 100] (by decide)
  rw [← stretched] at hcoherent
  generalize stretched = w at hlength hcoherent ⊢
  obtain ⟨-, -, hmap, hset⟩ := hcoherent
  obtain ⟨-, descriptions, hmove, -⟩ := hset 450
  rw [hlength] at hmap
  have hnames := congrArg (List.map fun p => p.2.easingName) hmap
  have hlengths := congrArg (List.map fun p => p.2.length) hmap
  rw [List.map_map, List.map_map] at hnames hlengths
  refine ⟨hnames.trans (by decide +kernel), hlengths.trans (by decide +kernel), by rw [hmove], ?_⟩
  rw [hmove, notices, List.filterMap_append]
  rfl

end Gallery

end Tween
