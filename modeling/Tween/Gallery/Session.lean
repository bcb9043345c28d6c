import Tween.Gallery.Move
import Tween.Gallery.Scene

namespace Tween.Gallery

open Act

inductive Key where
  | escape
  | space
  | r
  | plus
  | equals
  | keypadPlus
  | minus
  | keypadMinus
  | other
deriving DecidableEq

inductive Input where
  | quit
  | press (key : Key)
  | other
deriving DecidableEq

/-- What a frame brings: the time since the one before, and its events. -/
structure Frame where
  elapsed : Int
  inputs : List Input
deriving DecidableEq

inductive Command where
  | quit
  | launch
  | reverse
  | longer
  | shorter
  | nothing
deriving DecidableEq

def Key.command : Key → Command
  | .escape => .quit
  | .space => .launch
  | .r => .reverse
  | .plus | .equals | .keypadPlus => .longer
  | .minus | .keypadMinus => .shorter
  | .other => .nothing

def Input.command : Input → Command
  | .quit => .quit
  | .press key => key.command
  | .other => .nothing

def obey : Command → Act Hall Bool
  | .quit => return false
  | .launch => do
    launch
    return true
  | .reverse => do
    reverseAll
    return true
  | .longer => do
    setLength ((← get).client.length + lengthStep)
    return true
  | .shorter => do
    setLength ((← get).client.length - lengthStep)
    return true
  | .nothing => return true

/-- Handles all events in order; one that asks to quit does not stop the others. -/
def handle : List Input → Act Hall Bool
  | [] => return true
  | input :: rest => do
    let goesOn ← obey input.command
    return (← handle rest) && goesOn

def advanceFrame (inputs : List Input) : Act Hall Bool := do
  let goesOn ← handle inputs
  tick
  return goesOn

def picture (fontHeight : Int) : Act Hall (List Call) :=
  query fun w =>
    match (drawScene w fontHeight).calls with
    | (none, calls) => .ok calls.toList
    | (some fault, _) => .error fault

def playFrames (fontHeight : Int) : List Frame → Act Hall (List Call)
  | [] => do
    let _ ← advanceFrame [.quit]
    return .tick framesPerSecond :: (← picture fontHeight)
  | frame :: rest => do
    advanceClock frame.elapsed
    let goesOn ← advanceFrame frame.inputs
    let drawn := Call.tick framesPerSecond :: (← picture fontHeight)
    if goesOn then return drawn ++ (← playFrames fontHeight rest) else return drawn

def opening : List Call :=
  [.init, .setMode screenWidth screenHeight, .setCaption "Easing Gallery - tick-animation demo",
    .font "monospace" 13]

def play (fontHeight : Int) (frames : List Frame) : Except Fault (List Call) × World Hall :=
  let (outcome, w) := (playFrames fontHeight frames).perform onSystemClock
  (outcome.map fun calls => opening ++ calls ++ [.quit], w)

end Tween.Gallery
