import Tween.Gallery.Foreign

namespace Tween.Gallery

open Act

/-- One thing done to the gallery; lanes are counted from zero. -/
inductive Move where
  | launch
  | reverse
  | setLength (length : Int)
  | reverseLane (lane : Nat)
  | configureLane (lane : Nat) (text : String)
  | bindForeign (foreign : Foreign)
  | advance (ms : Int)
  | reset (now : Int)
  | tick (ms : Int)

def advanceClock (ms : Int) : Act Hall Unit := do
  match (← get).client.clock with
  | .manual r =>
    let _ ← Act.advance r ms
  | .system => setMonotonic ((← get).monotonic + ms * nanosPerMilli)

def setClock (now : Int) : Act Hall Unit := do
  match (← get).client.clock with
  | .manual r => Act.resetClock r now
  | .system => setMonotonic (now * nanosPerMilli)

def onLane (i : Nat) (f : Lane → Act Hall Reply) : Act Hall Reply := do
  match (← get).client.lanes[i]? with
  | some lane => f lane
  | none => return .done

def make : Move → Act Hall Reply
  | .launch => do
    launch
    return .done
  | .reverse => do
    reverseAll
    return .done
  | .setLength length => do
    setLength length
    return .done
  | .reverseLane i => onLane i fun lane => do
    reverseLane lane
    return .done
  | .configureLane i text => onLane i fun lane => return .flag (← configureLane lane text)
  | .bindForeign foreign => do
    bindForeign foreign
    return .done
  | .advance ms => do
    advanceClock ms
    return .done
  | .reset now => do
    setClock now
    return .done
  | .tick ms => do
    advanceClock ms
    tick
    return .done

def move (w : World Hall) (m : Move) : Except Fault Reply × World Hall :=
  (make m).perform w

/-- The world that moves leave, whether they fail or not. -/
def moves (w : World Hall) (ms : List Move) : World Hall :=
  ms.foldl (fun w m => (move w m).2) w

end Tween.Gallery
