import Tween.Gallery.Hall

namespace Tween.Gallery

open Act

/-- What gives a foreign duration its length: what is there already and may be the setting of a lane,
or a setting of its own. -/
inductive Gauge where
  | shared (source : Source)
  | length (setting : Setting Int)
  | description (setting : Setting Description)

/-- A duration that someone else has made, as it is by now: `age` is the time since its start. -/
structure Newcomer where
  gauge : Gauge
  smoothing : Easing := .named .circle
  onMachine : Bool := false
  age : Option Int := none
  pending : Bool := false
  reversed : Bool := false

/-- The duration of a foreign binding: one that is there already and may be that of a lane, or one
of its own. -/
inductive Tempo where
  | shared (duration : Ref Duration)
  | own (newcomer : Newcomer)

/-- The transition of a foreign binding: one that is there already, or one of its own. -/
inductive Course where
  | shared (transition : Ref Transition)
  | own (start finish : Float) (tempo : Tempo)

structure Foreign where
  target : Ref Target
  field : String
  course : Course

def Gauge.source : Gauge → Act Hall Source
  | .shared source => return source
  | .length setting => return .length (← newLength setting)
  | .description setting => return .description (← newDescription setting)

def Newcomer.duration (n : Newcomer) : Act Hall (Ref Duration) := do
  let source ← n.gauge.source
  let w ← get
  let clock := if n.onMachine then .system else w.client.clock
  addDuration ⟨source, n.smoothing, clock, ⟨n.age.map (w.now clock - ·), n.pending, n.reversed⟩⟩

def Tempo.duration : Tempo → Act Hall (Ref Duration)
  | .shared duration => return duration
  | .own newcomer => newcomer.duration

def Course.transition : Course → Act Hall (Ref Transition)
  | .shared transition => return transition
  | .own start finish tempo => do
    newTransition (← tempo.duration) start finish

/-- Binds a field to a transition, unless that belongs to a lane. -/
def bindForeign (f : Foreign) : Act Hall Unit := do
  let transition ← f.course.transition
  let w ← get
  if transition.index < w.transitions.next ∧
      w.client.lanes.all (·.animation.transition ≠ transition) then
    enlist w.client.system (← newBinding f.target f.field transition)

/-- An animation from zero to one that has just been started. -/
def Foreign.starting (target : Ref Target) (field : String) (length : Int) : Foreign where
  target
  field
  course := .own 0.0 1.0
    (.own { gauge := .length (.whole "foreign" length), age := some 0, pending := true })

end Tween.Gallery
