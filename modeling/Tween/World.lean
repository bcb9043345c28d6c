import Tween.Setting
import Tween.Store
import Tween.Timer

namespace Tween

structure ManualClock where
  now : Int
deriving DecidableEq, Inhabited

inductive Clock where
  /-- The machine's clock, which never goes back. -/
  | system
  | manual (clock : Ref ManualClock)
deriving DecidableEq, Inhabited

inductive Source where
  | unset
  | length (setting : Ref (Setting Int))
  /-- The easing comes from there, too. -/
  | description (setting : Ref (Setting Description))
deriving Inhabited

structure Duration where
  source : Source
  smoothing : Easing
  clock : Clock
  timer : Timer := {}
deriving Inhabited

structure Transition where
  duration : Ref Duration
  start : Float
  finish : Float
deriving Inhabited

structure Animation where
  duration : Ref Duration
  transition : Ref Transition
deriving DecidableEq, Inhabited

/-- Something with fields that are written to, in the order they were first written. -/
structure Target where
  fields : List (String × Float) := []
deriving Inhabited

structure Binding where
  target : Ref Target
  field : String
  transition : Ref Transition
deriving DecidableEq, Inhabited

/-- What a system does on each completion. -/
inductive Policy where
  | ignore
  | record
  /-- Starts the duration again and lists the binding again. -/
  | restart
  | clear
deriving DecidableEq, Inhabited

structure System where
  members : List (Ref Binding) := []
  policy : Policy := .ignore
deriving Inhabited

inductive Level where
  | debug
  | info
  | warning
deriving DecidableEq

inductive Notice where
  | noLength
  | invalidValue (text name : String)
  | finished (title : String) (x : Float)
  | lengthSet (length : Int)
deriving DecidableEq

def Notice.level : Notice → Level
  | .noLength | .finished .. => .debug
  | .invalidValue .. => .warning
  | .lengthSet _ => .info

def Notice.text : Notice → String
  | .noLength => "Querying a Duration that has no length configured"
  | .invalidValue text name => "Invalid value " ++ Text.quoted text ++ " for option " ++ name
  | .finished title x => title ++ " finished at x=" ++ Number.onePlaceText x
  | .lengthSet length =>
    "Animation length set to " ++ String.ofList (Number.integerDigits length) ++ " ms"

inductive Event where
  | noted (notice : Notice)
  | wrote (target : Ref Target) (field : String) (value : Float)
  | reported (binding : Ref Binding)
deriving DecidableEq

structure World (κ : Type) where
  /-- The machine's clock, in nanoseconds. -/
  monotonic : Int := 0
  clocks : Store ManualClock := {}
  lengths : Store (Setting Int) := {}
  descriptions : Store (Setting Description) := {}
  durations : Store Duration := {}
  transitions : Store Transition := {}
  targets : Store Target := {}
  bindings : Store Binding := {}
  systems : Store System := {}
  journal : List Event := []
  client : κ

abbrev Act (κ α : Type) := ExceptT Fault (StateM (World κ)) α

namespace Act

variable {κ α : Type}

def perform (act : Act κ α) (w : World κ) : Except Fault α × World κ :=
  act.run w

def query (f : World κ → Except Fault α) : Act κ α := do
  match f (← get) with
  | .ok a => return a
  | .error fault => throw fault

def log (event : Event) : Act κ Unit :=
  modify fun w => { w with journal := w.journal ++ [event] }

def note (notice : Notice) : Act κ Unit :=
  log (.noted notice)

end Act

end Tween
