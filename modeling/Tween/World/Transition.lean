import Tween.World.Duration

namespace Tween

variable {κ : Type}

def Transition.at (t : Transition) (progress : Float) : Float :=
  t.start + progress * (t.finish - t.start)

def Transition.shown (t : Transition) : String :=
  "TimedTransition(start=" ++ Number.floatText t.start ++ ", end=" ++ Number.floatText t.finish ++
    ")"

def World.value (w : World κ) (r : Ref Transition) : Except Fault Float := do
  let t := w.transitions.get r
  return t.at (← w.progress t.duration)

namespace Act

def newTransition (duration : Ref Duration) (start finish : Float) : Act κ (Ref Transition) :=
  modifyGet fun w =>
    let (r, transitions) := w.transitions.add ⟨duration, start, finish⟩
    (r, { w with transitions })

def changeTransition (r : Ref Transition) (f : Transition → Transition) : Act κ Unit :=
  modify fun w => { w with transitions := w.transitions.modify r f }

def value (r : Ref Transition) : Act κ Float := do
  let t := (← get).transitions.get r
  return t.at (← progress t.duration)

def setEnds (r : Ref Transition) (start finish : Float) : Act κ Unit :=
  changeTransition r fun t => { t with start, finish }

def retarget (r : Ref Transition) (finish : Float) : Act κ Unit := do
  let start ← value r
  setEnds r start finish

def restartSame (r : Ref Transition) : Act κ Unit := do
  let start ← value r
  changeTransition r fun t => { t with start }

def flip (r : Ref Transition) : Act κ Unit :=
  changeTransition r fun t => { t with start := t.finish, finish := t.start }

def newAnimation (spec : DurationSpec) : Act κ Animation := do
  let duration ← newDuration spec
  let transition ← newTransition duration 0.0 0.0
  return ⟨duration, transition⟩

/-- Starts an animation: toward the end it has, toward a new end from the current value, or from
one value to another. -/
def animate (a : Animation) (values : List Float) : Act κ Unit := do
  match values with
  | [] => restartSame a.transition
  | [finish] => retarget a.transition finish
  | [start, finish] => setEnds a.transition start finish
  | _ => throw (.tooManyValues values.length)
  start a.duration

end Act

end Tween
