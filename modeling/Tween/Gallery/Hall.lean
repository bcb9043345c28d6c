import Tween.Gallery.Layout
import Tween.World.View

namespace Tween.Gallery

open Act

structure Lane where
  title : String
  setting : Ref (Setting Description)
  animation : Animation
  orb : Ref Target
  completed : Nat := 0
deriving DecidableEq

structure Hall where
  length : Int := defaultLength
  lanes : List Lane := []
  system : Ref System := default
  clock : Clock := .system

def place : String := "x"

def withLength (length : Int) (easing : String) : String :=
  String.ofList (Number.integerDigits length) ++ "ms " ++ easing

def openLane (length : Int) (clock : Clock) (title easing : String) : Act Hall Lane := do
  let setting ← query fun _ => Setting.ofText title (withLength length easing)
  let setting ← newDescription setting
  let animation ← newAnimation { description := some setting, clock }
  setEnds animation.transition leftEnd leftEnd
  let orb ← newTarget
  modify fun w => { w with targets := w.targets.set orb ⟨[(place, leftEnd)]⟩ }
  return { title, setting, animation, orb }

def openHall (clock : Clock) : Act Hall Unit := do
  let lanes ← laneEasings.mapM fun (title, easing) => openLane defaultLength clock title easing
  let system ← newSystem .ignore
  modify fun w => { w with client := { lanes, system, clock } }

def onSystemClock : World Hall :=
  ((openHall .system).perform { client := {} }).2

def onManualClock (start : Int) : World Hall :=
  ((do openHall (.manual (← newClock start)) : Act Hall Unit).perform { client := {} }).2

end Tween.Gallery

namespace Tween.World

open Gallery

variable (w : World Hall)

def orbX (lane : Lane) : Float :=
  ((w.targets.get lane.orb).fields.lookup place).getD 0.0

def destination (lane : Lane) : Float :=
  let t := w.transitions.get lane.animation.transition
  if (w.timer lane.animation.duration).reversed then t.start else t.finish

end Tween.World

namespace Tween.Gallery

open Act

/-- Binds the orb of a lane to its transition, unless something already follows that. -/
def bindLane (lane : Lane) : Act Hall Unit := do
  let w ← get
  let transition := lane.animation.transition
  if !(w.systems.get w.client.system).members.any
      (fun b => (w.bindings.get b).transition = transition) then
    enlist w.client.system (← newBinding lane.orb place transition)

def launchLane (lane : Lane) : Act Hall Unit := do
  let current ← value lane.animation.transition
  let w ← get
  let target := if w.destination lane == rightEnd then leftEnd else rightEnd
  if (w.timer lane.animation.duration).reversed then reverse lane.animation.duration
  animate lane.animation [current, target]
  bindLane lane

def launch : Act Hall Unit := do
  (← get).client.lanes.forM launchLane

def reverseLane (lane : Lane) : Act Hall Unit :=
  reverse lane.animation.duration

def reverseAll : Act Hall Unit := do
  (← get).client.lanes.forM fun lane => do
    if (← phase lane.animation.duration) = .running then reverseLane lane

def configureLane (lane : Lane) (text : String) : Act Hall Bool :=
  setDescriptionText lane.setting text

def clampLength (length : Int) : Int :=
  max minLength (min maxLength length)

def setLength (length : Int) : Act Hall Unit := do
  let length := clampLength length
  modify fun w => { w with client := { w.client with length } }
  (← get).client.lanes.forM fun lane => do
    let easing := ((← get).descriptions.get lane.setting).value.easingName
    let _ ← configureLane lane (withLength length easing)
  note (.lengthSet length)

def countCompletion (transition : Ref Transition) : List Lane → Option (Lane × List Lane)
  | [] => none
  | lane :: rest =>
    if lane.animation.transition = transition then
      let lane := { lane with completed := lane.completed + 1 }
      some (lane, lane :: rest)
    else (countCompletion transition rest).map fun (found, rest) => (found, lane :: rest)

/-- What the gallery does on the completion of a binding. -/
def complete (b : Ref Binding) : Act Hall Unit := do
  let w ← get
  let binding := w.bindings.get b
  match countCompletion binding.transition w.client.lanes with
  | none => throw (.foreignBinding binding.field)
  | some (lane, lanes) =>
    set { w with client := { w.client with lanes } }
    note (.finished lane.title (w.orbX lane))

def tick : Act Hall Unit := do
  tickWith (← get).client.system complete

structure LaneView where
  title : String
  x : Float
  completed : Nat
  phase : Phase
  reversed : Bool
  start : Float
  finish : Float
  destination : Float
  description : Except Fault String

def viewLane (w : World Hall) (lane : Lane) : LaneView where
  title := lane.title
  x := w.orbX lane
  completed := lane.completed
  phase := w.phase lane.animation.duration
  reversed := (w.timer lane.animation.duration).reversed
  start := (w.transitions.get lane.animation.transition).start
  finish := (w.transitions.get lane.animation.transition).finish
  destination := w.destination lane
  description := (w.descriptions.get lane.setting).value.text

end Tween.Gallery
