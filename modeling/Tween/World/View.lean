import Tween.World.Operation

namespace Tween

variable {κ : Type}

structure DurationView where
  phase : Phase
  length : Int
  elapsed : Option Int
  reversed : Bool
  fraction : Except Fault Float
  progress : Except Fault Float

structure TransitionView where
  start : Float
  finish : Float
  value : Except Fault Float

namespace World

def viewDuration (w : World κ) (d : Ref Duration) : DurationView where
  phase := w.phase d
  length := w.length d
  elapsed := w.elapsed d
  reversed := (w.timer d).reversed
  fraction := w.fraction d
  progress := w.progress d

def viewTransition (w : World κ) (r : Ref Transition) : TransitionView where
  start := (w.transitions.get r).start
  finish := (w.transitions.get r).finish
  value := w.value r

def notices (w : World κ) : List Notice :=
  w.journal.filterMap fun
    | .noted notice => some notice
    | _ => none

def writes (w : World κ) : List (Ref Target × String × Float) :=
  w.journal.filterMap fun
    | .wrote target field x => some (target, field, x)
    | _ => none

def reports (w : World κ) : List (Ref Binding) :=
  w.journal.filterMap fun
    | .reported b => some b
    | _ => none

def clearJournal (w : World κ) : World κ :=
  { w with journal := [] }

end World

end Tween
