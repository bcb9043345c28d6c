import Tween.World.Clock

namespace Tween

variable {κ : Type}

structure DurationSpec where
  length : Option (Ref (Setting Int)) := none
  description : Option (Ref (Setting Description)) := none
  smoothing : Easing := .named .circle
  clock : Clock := .system

def DurationSpec.ofDescription (setting : Ref (Setting Description)) (clock : Clock) :
    DurationSpec :=
  { description := some setting, clock }

/-- A duration that was never started; its length has one source at most. -/
def DurationSpec.make (spec : DurationSpec) : Except Fault Duration :=
  match spec.length, spec.description with
  | some _, some _ => .error .twoLengths
  | some r, none => .ok ⟨.length r, spec.smoothing, spec.clock, {}⟩
  | none, some r => .ok ⟨.description r, spec.smoothing, spec.clock, {}⟩
  | none, none => .ok ⟨.unset, spec.smoothing, spec.clock, {}⟩

namespace World

variable (w : World κ) (d : Ref Duration)

/-- The length, one millisecond at least. -/
def length : Int :=
  match (w.durations.get d).source with
  | .unset => 1
  | .length r => max 1 (w.lengths.get r).value
  | .description r => max 1 (w.descriptions.get r).value.length

/-- The easing: that of the description, if the length comes from one. -/
def easing : Easing :=
  match (w.durations.get d).source with
  | .description r => (w.descriptions.get r).value.easing
  | _ => (w.durations.get d).smoothing

def timer : Timer :=
  (w.durations.get d).timer

def nowOf : Int :=
  w.now (w.durations.get d).clock

def elapsed : Option Int :=
  (w.timer d).elapsed (w.nowOf d)

def finished : Bool :=
  (w.timer d).finished (w.nowOf d) (w.length d)

def phase : Phase :=
  (w.timer d).phase (w.nowOf d) (w.length d)

def due : Bool :=
  (w.timer d).due (w.nowOf d) (w.length d)

def hasLength : Bool :=
  match (w.durations.get d).source with
  | .unset => false
  | _ => true

/-- The progress before easing; it is complete when no length is configured. -/
def fraction : Except Fault Float :=
  if w.hasLength d then (w.timer d).fraction (w.nowOf d) (w.length d) else .ok 1.0

def progress : Except Fault Float := do
  if w.finished d then (w.easing d).eval (w.timer d).endpoint
  else (w.easing d).eval (← w.fraction d)

/-- How often the length is looked up to tell whether the duration has finished. -/
def lookups : Nat :=
  if (w.timer d).startedAt.isSome then 1 else 0

def durationText : Except Fault String := do
  return "Duration(state=" ++ (w.phase d).name ++ ", length_ms=" ++
    (← Number.integerText (w.length d)) ++ ", direction=" ++
    (if (w.timer d).reversed then "0" else "1") ++ ")"

end World

namespace Act

def addDuration (duration : Duration) : Act κ (Ref Duration) :=
  modifyGet fun w =>
    let (r, durations) := w.durations.add duration
    (r, { w with durations })

def newDuration (spec : DurationSpec) : Act κ (Ref Duration) := do
  addDuration (← query fun _ => spec.make)

def clone (d : Ref Duration) : Act κ (Ref Duration) := do
  addDuration ((← get).durations.get d)

def noteLookups (d : Ref Duration) (count : Nat) : Act κ Unit :=
  modify fun w =>
    if w.hasLength d then w
    else { w with journal := w.journal ++ List.replicate count (.noted .noLength) }

def changeTimer (d : Ref Duration) (f : Timer → Timer) : Act κ Unit :=
  modify fun w => { w with durations := w.durations.modify d fun x => { x with timer := f x.timer } }

/-- Looks the length up. -/
def length (d : Ref Duration) : Act κ Int := do
  noteLookups d 1
  return (← get).length d

def phase (d : Ref Duration) : Act κ Phase := do
  noteLookups d ((← get).lookups d)
  return (← get).phase d

def progress (d : Ref Duration) : Act κ Float := do
  noteLookups d ((← get).lookups d)
  query (·.progress d)

def start (d : Ref Duration) : Act κ Unit := do
  let now := (← get).nowOf d
  changeTimer d (·.start now)

def reverse (d : Ref Duration) : Act κ Unit := do
  let length ← length d
  let now := (← get).nowOf d
  changeTimer d (·.reverse now length)

def consume (d : Ref Duration) : Act κ Bool := do
  noteLookups d ((← get).lookups d)
  if (← get).due d then
    changeTimer d (·.consumed)
    return true
  else return false

/-- Whether the duration runs, with one more `true` for the completion. -/
def poll (d : Ref Duration) : Act κ Bool := do
  noteLookups d ((← get).lookups d)
  if (← get).finished d then consume d else return true

def durationText (d : Ref Duration) : Act κ String := do
  noteLookups d ((← get).lookups d + 1)
  query (·.durationText d)

end Act

end Tween
