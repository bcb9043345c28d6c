import Tween.Gallery.Move
import Tween.Proofs.Calls

namespace Tween

variable {κ : Type}

namespace Store

variable {α : Type}

def Holds (s : Store α) (r : Ref α) : Prop :=
  r.index ∈ s.cells.map Prod.fst

def map (f : α → α) (s : Store α) : Store α :=
  { s with cells := s.cells.map fun cell => (cell.1, f cell.2) }

theorem replace_map (f : α → α) (cells : List (Nat × α)) (n : Nat) (a : α) :
    replace (cells.map fun cell => (cell.1, f cell.2)) n (f a) =
      (replace cells n a).map fun cell => (cell.1, f cell.2) := by
  induction cells with
  | nil => rfl
  | cons cell rest ih =>
    rw [List.map_cons, replace, replace]
    split
    · rfl
    · rw [ih, List.map_cons]

theorem set_map (f : α → α) (s : Store α) (r : Ref α) (a : α) :
    (s.map f).set r (f a) = (s.set r a).map f := by
  simp only [set, map, replace_map]

theorem add_map (f : α → α) (s : Store α) (a : α) :
    (s.map f).add (f a) = ((s.add a).1, (s.add a).2.map f) := by
  simp only [add, map, replace_map]

theorem mem_replace {cells : List (Nat × α)} {m n : Nat} {a : α} :
    m ∈ (replace cells n a).map Prod.fst ↔ m = n ∨ m ∈ cells.map Prod.fst := by
  induction cells with
  | nil => simp [replace]
  | cons cell rest ih =>
    rw [replace]
    split
    · next h => simp [h]
    · rw [List.map_cons, List.mem_cons, ih, List.map_cons, List.mem_cons, or_left_comm]

theorem Holds.set {s : Store α} {q : Ref α} (h : s.Holds q) (r : Ref α) (a : α) :
    (s.set r a).Holds q :=
  mem_replace.mpr (.inr h)

theorem Holds.add {s : Store α} {q : Ref α} (h : s.Holds q) (a : α) : (s.add a).2.Holds q :=
  mem_replace.mpr (.inr h)

theorem holds_add (s : Store α) (a : α) : (s.add a).2.Holds (s.add a).1 :=
  mem_replace.mpr (.inl rfl)

variable [Inhabited α]

theorem lookup_map (f : α → α) {cells : List (Nat × α)} {n : Nat}
    (h : n ∈ cells.map Prod.fst ∨ f default = default) :
    lookup (cells.map fun cell => (cell.1, f cell.2)) n = f (lookup cells n) := by
  induction cells with
  | nil => exact (h.resolve_left List.not_mem_nil).symm
  | cons cell rest ih =>
    rw [List.map_cons, lookup, lookup]
    split
    · rfl
    · next hne =>
      refine ih (h.imp_left fun hmem => ?_)
      exact (List.mem_cons.mp hmem).resolve_left fun heq => hne heq.symm

/-- What is held is changed, and so is everything if the default object stays as it is. -/
theorem get_map (f : α → α) {s : Store α} {r : Ref α} (h : s.Holds r ∨ f default = default) :
    (s.map f).get r = f (s.get r) :=
  lookup_map f h

end Store

def Clock.drift (c : Int) : Clock → Int
  | .system => 0
  | .manual _ => c

namespace Timer

def shifted (c : Int) (t : Timer) : Timer :=
  { t with startedAt := t.startedAt.map (· + c) }

variable (c : Int) (t : Timer) (now length : Int)

theorem elapsed_shifted : (t.shifted c).elapsed (now + c) = t.elapsed now := by
  rw [elapsed, elapsed, shifted]
  cases t.startedAt with
  | none => rfl
  | some start => exact congrArg some (show now + c - (start + c) = now - start by omega)

theorem finished_shifted : (t.shifted c).finished (now + c) length = t.finished now length := by
  rw [finished, elapsed_shifted, finished]

theorem phase_shifted : (t.shifted c).phase (now + c) length = t.phase now length := by
  rw [phase, finished_shifted]
  rfl

theorem due_shifted : (t.shifted c).due (now + c) length = t.due now length := by
  rw [due, phase_shifted, due]

theorem fraction_shifted : (t.shifted c).fraction (now + c) length = t.fraction now length := by
  rw [fraction, elapsed_shifted]
  rfl

theorem start_shifted : (t.shifted c).start (now + c) = (t.start now).shifted c := rfl

theorem reverse_shifted :
    (t.shifted c).reverse (now + c) length = (t.reverse now length).shifted c := by
  have hspent : (t.shifted c).spent (now + c) length = t.spent now length := by
    rw [spent, elapsed_shifted]
    rfl
  have hstart : now + c - (length - t.spent now length) = now - (length - t.spent now length) + c := by
    omega
  rw [reverse, hspent, hstart]
  rfl

end Timer

def Duration.shifted (c : Int) (d : Duration) : Duration :=
  { d with timer := d.timer.shifted (d.clock.drift c) }

namespace World

/-- The world in which all manual clocks read more by `c`, and what they have started is as old as
before. -/
def shifted (c : Int) (w : World κ) : World κ :=
  { w with
    clocks := w.clocks.map fun clock => ⟨clock.now + c⟩
    durations := w.durations.map (Duration.shifted c) }

def Knows (w : World κ) : Clock → Prop
  | .system => True
  | .manual r => w.clocks.Holds r

/-- The clocks of all durations exist, and those of the client are manual ones that do. -/
structure Grounded (home : κ → List Clock) (w : World κ) : Prop where
  durations : ∀ d, w.Knows (w.durations.get d).clock
  home : ∀ clock ∈ home w.client, ∃ r, clock = .manual r ∧ w.clocks.Holds r

variable {home : κ → List Clock} {w : World κ} {c : Int}

theorem duration_shifted (c : Int) (w : World κ) (d : Ref Duration) :
    (w.shifted c).durations.get d = (w.durations.get d).shifted c :=
  Store.get_map _ (.inr rfl)

theorem timer_shifted (c : Int) (w : World κ) (d : Ref Duration) :
    (w.shifted c).timer d = (w.timer d).shifted ((w.durations.get d).clock.drift c) := by
  rw [timer, duration_shifted]
  rfl

theorem now_shifted {clock : Clock} (h : w.Knows clock) :
    (w.shifted c).now clock = w.now clock + clock.drift c := by
  cases clock with
  | system => exact (Int.add_zero _).symm
  | manual r => exact congrArg ManualClock.now (Store.get_map _ (.inl h))

theorem nowOf_shifted (h : w.Grounded home) (d : Ref Duration) :
    (w.shifted c).nowOf d = w.nowOf d + (w.durations.get d).clock.drift c := by
  rw [nowOf, duration_shifted]
  exact now_shifted (h.durations d)

theorem length_shifted (c : Int) (w : World κ) (d : Ref Duration) :
    (w.shifted c).length d = w.length d := by
  rw [length, duration_shifted]
  rfl

theorem easing_shifted (c : Int) (w : World κ) (d : Ref Duration) :
    (w.shifted c).easing d = w.easing d := by
  rw [easing, duration_shifted]
  rfl

theorem hasLength_shifted (c : Int) (w : World κ) (d : Ref Duration) :
    (w.shifted c).hasLength d = w.hasLength d := by
  rw [hasLength, duration_shifted]
  rfl

theorem lookups_shifted (c : Int) (w : World κ) (d : Ref Duration) :
    (w.shifted c).lookups d = w.lookups d := by
  rw [lookups, timer_shifted, Timer.shifted, Option.isSome_map, lookups]

theorem elapsed_shifted (h : w.Grounded home) (d : Ref Duration) :
    (w.shifted c).elapsed d = w.elapsed d := by
  rw [elapsed, timer_shifted, nowOf_shifted h, Timer.elapsed_shifted, elapsed]

theorem finished_shifted (h : w.Grounded home) (d : Ref Duration) :
    (w.shifted c).finished d = w.finished d := by
  rw [finished, timer_shifted, nowOf_shifted h, length_shifted, Timer.finished_shifted, finished]

theorem phase_shifted (h : w.Grounded home) (d : Ref Duration) :
    (w.shifted c).phase d = w.phase d := by
  rw [phase, timer_shifted, nowOf_shifted h, length_shifted, Timer.phase_shifted, phase]

theorem due_shifted (h : w.Grounded home) (d : Ref Duration) : (w.shifted c).due d = w.due d := by
  rw [due, timer_shifted, nowOf_shifted h, length_shifted, Timer.due_shifted, due]

theorem fraction_shifted (h : w.Grounded home) (d : Ref Duration) :
    (w.shifted c).fraction d = w.fraction d := by
  rw [fraction, hasLength_shifted, timer_shifted, nowOf_shifted h, length_shifted,
    Timer.fraction_shifted, fraction]

theorem progress_shifted (h : w.Grounded home) (d : Ref Duration) :
    (w.shifted c).progress d = w.progress d := by
  rw [progress, finished_shifted h, easing_shifted, fraction_shifted h, timer_shifted]
  rfl

theorem value_shifted (h : w.Grounded home) (r : Ref Transition) :
    (w.shifted c).value r = w.value r := by
  change ((w.shifted c).progress (w.transitions.get r).duration >>= _) = _
  rw [progress_shifted h]
  rfl

theorem durationText_shifted (h : w.Grounded home) (d : Ref Duration) :
    (w.shifted c).durationText d = w.durationText d := by
  rw [durationText, phase_shifted h, length_shifted, timer_shifted]
  rfl

theorem viewDuration_shifted (h : w.Grounded home) (d : Ref Duration) :
    (w.shifted c).viewDuration d = w.viewDuration d := by
  rw [viewDuration, phase_shifted h, length_shifted, elapsed_shifted h, timer_shifted,
    fraction_shifted h, progress_shifted h]
  rfl

theorem viewTransition_shifted (h : w.Grounded home) (r : Ref Transition) :
    (w.shifted c).viewTransition r = w.viewTransition r := by
  rw [viewTransition, value_shifted h]
  rfl

theorem looked_shifted (c : Int) (w : World κ) (d : Ref Duration) (count : Nat) :
    (w.shifted c).looked d count = (w.looked d count).shifted c := by
  rw [looked, hasLength_shifted]
  rfl

/-- A change of the timing state is the same in both worlds, if it is the same for the state. -/
theorem withTimer_shifted {d : Ref Duration} {f g : Timer → Timer}
    (h : g ((w.timer d).shifted ((w.durations.get d).clock.drift c)) =
      (f (w.timer d)).shifted ((w.durations.get d).clock.drift c)) :
    (w.shifted c).withTimer d g = (w.withTimer d f).shifted c := by
  have hnew : { (w.durations.get d).shifted c with
      timer := g ((w.durations.get d).shifted c).timer } =
      Duration.shifted c { w.durations.get d with timer := f (w.timer d) } :=
    congrArg (fun timer => { w.durations.get d with timer }) h
  have hdurations : (w.durations.map (Duration.shifted c)).modify d
      (fun x => { x with timer := g x.timer }) =
      (w.durations.modify d fun x => { x with timer := f x.timer }).map (Duration.shifted c) := by
    rw [Store.modify, Store.get_map _ (.inr rfl), hnew, Store.set_map]
    rfl
  exact congrArg (fun durations => { w.shifted c with durations }) hdurations

end World

end Tween
