import Tween.Number.Nearest

namespace Tween

inductive Phase where
  | idle
  | running
  | completed
deriving DecidableEq, Repr

def Phase.name : Phase → String
  | .idle => "idle"
  | .running => "running"
  | .completed => "completed"

structure Timer where
  /-- The reading of the clock that counts as the start. -/
  startedAt : Option Int := none
  /-- Started, and the completion not yet reported. -/
  pending : Bool := false
  reversed : Bool := false
deriving DecidableEq, Repr, Inhabited

namespace Timer

def elapsed (t : Timer) (now : Int) : Option Int :=
  t.startedAt.map (now - ·)

/-- Whether the length has passed, or nothing was started. -/
def finished (t : Timer) (now length : Int) : Bool :=
  (t.elapsed now).all (length ≤ ·)

/-- Where the animation stands: a finished one is completed until that is reported. -/
def phase (t : Timer) (now length : Int) : Phase :=
  if !t.finished now length then .running
  else if t.pending then .completed
  else .idle

def start (t : Timer) (now : Int) : Timer :=
  { t with startedAt := some now, pending := true }

/-- Whether a completion is to be reported. -/
def due (t : Timer) (now length : Int) : Bool :=
  t.phase now length = .completed

def consumed (t : Timer) : Timer :=
  { t with pending := false }

/-- The time since the start, at most the length; the length for a timer not started. -/
def spent (t : Timer) (now length : Int) : Int :=
  match t.elapsed now with
  | none => length
  | some e => min e length

/-- Turns around on the spot: what was left is spent, and what was spent is left. -/
def reverse (t : Timer) (now length : Int) : Timer :=
  { t with
    startedAt := some (now - (length - t.spent now length))
    reversed := !t.reversed }

def endpoint (t : Timer) : Float :=
  if t.reversed then 0.0 else 1.0

def clampUnit (q : Float) : Float :=
  let m := if q < 1.0 then q else 1.0
  if 0.0 < m then m else 0.0

/-- The progress after a part of the length, in the direction of travel. -/
def fractionAt (t : Timer) (e length : Int) : Except Fault Float := do
  let q ← Number.quotient e length
  return clampUnit (if t.reversed then 1.0 - q else q)

def fraction (t : Timer) (now length : Int) : Except Fault Float :=
  match t.elapsed now with
  | none => .ok t.endpoint
  | some e => if length ≤ e then .ok t.endpoint else t.fractionAt e length

end Timer

end Tween
