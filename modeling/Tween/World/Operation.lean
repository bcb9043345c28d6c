import Tween.World.System

namespace Tween

inductive ClockOp where
  | read
  | advance (ms : Int)
  | reset (now : Int)

inductive SettingOp (α : Type) where
  | name
  | value
  | default
  | set (value : α)
  | setText (text : String)
  | reset
  | shown

inductive DurationOp where
  | start
  | reverse
  | phase
  | length
  | elapsed
  | progress
  | fraction
  | poll
  | consume
  | direction
  | easing
  | shown

inductive TransitionOp where
  | value
  | setEnds (start finish : Float)
  | retarget (finish : Float)
  | restartSame
  | flip
  | shown
  | start
  | finish

inductive SystemOp where
  | add (binding : Ref Binding)
  | tick

/-- An operation. -/
inductive Op where
  | setMonotonic (ns : Int)
  | newClock (start : Int)
  | newLength (setting : Setting Int)
  | newDescription (setting : Setting Description)
  | newDescriptionOfText (name text : String)
  | newDuration (spec : DurationSpec)
  | newAnimation (spec : DurationSpec)
  | newTransition (duration : Ref Duration) (start finish : Float)
  | clone (duration : Ref Duration)
  | newTarget
  | newBinding (target : Ref Target) (field : String) (transition : Ref Transition)
  | newSystem (policy : Policy)
  | onClock (clock : Ref ManualClock) (op : ClockOp)
  | onLength (setting : Ref (Setting Int)) (op : SettingOp Int)
  | onDescription (setting : Ref (Setting Description)) (op : SettingOp Description)
  | onDuration (duration : Ref Duration) (op : DurationOp)
  | onTransition (transition : Ref Transition) (op : TransitionOp)
  | animate (animation : Animation) (values : List Float)
  | onSystem (system : Ref System) (op : SystemOp)

inductive Handle where
  | clock (ref : Ref ManualClock)
  | length (ref : Ref (Setting Int))
  | description (ref : Ref (Setting Description))
  | duration (ref : Ref Duration)
  | transition (ref : Ref Transition)
  | animation (animation : Animation)
  | target (ref : Ref Target)
  | binding (ref : Ref Binding)
  | system (ref : Ref System)
deriving DecidableEq

inductive Reply where
  | done
  | made (handle : Handle)
  | flag (value : Bool)
  | whole (value : Int)
  | maybeWhole (value : Option Int)
  | number (value : Float)
  | text (value : String)
  | phase (value : Phase)
  | direction (reversed : Bool)
  | easing (value : Easing)
  | description (value : Description)

namespace Act

variable {κ : Type}

def clockOp (r : Ref ManualClock) : ClockOp → Act κ Reply
  | .read => return .whole ((← get).clocks.get r).now
  | .advance ms => return .whole (← advance r ms)
  | .reset now => do
    resetClock r now
    return .done

def lengthOp (r : Ref (Setting Int)) : SettingOp Int → Act κ Reply
  | .name => return .text ((← get).lengths.get r).name
  | .value => return .whole ((← get).lengths.get r).value
  | .default => return .whole ((← get).lengths.get r).default
  | .set value => do
    changeLength r (·.set value)
    return .done
  | .setText text => return .flag (← setLengthText r text)
  | .reset => do
    changeLength r (·.reset)
    return .done
  | .shown => do
    let s := (← get).lengths.get r
    return .text (s.shown (← query fun _ => Number.integerText s.value))

def descriptionOp (r : Ref (Setting Description)) : SettingOp Description → Act κ Reply
  | .name => return .text ((← get).descriptions.get r).name
  | .value => return .description ((← get).descriptions.get r).value
  | .default => return .description ((← get).descriptions.get r).default
  | .set value => do
    changeDescription r (·.set value)
    return .done
  | .setText text => return .flag (← setDescriptionText r text)
  | .reset => do
    changeDescription r (·.reset)
    return .done
  | .shown => do
    let s := (← get).descriptions.get r
    return .text (s.shown (← query fun _ => s.value.shown))

def durationOp (d : Ref Duration) : DurationOp → Act κ Reply
  | .start => do
    start d
    return .done
  | .reverse => do
    reverse d
    return .done
  | .phase => return .phase (← phase d)
  | .length => return .whole (← length d)
  | .elapsed => return .maybeWhole ((← get).elapsed d)
  | .progress => return .number (← progress d)
  | .fraction => return .number (← query (·.fraction d))
  | .poll => return .flag (← poll d)
  | .consume => return .flag (← consume d)
  | .direction => return .direction ((← get).timer d).reversed
  | .easing => return .easing ((← get).easing d)
  | .shown => return .text (← durationText d)

def transitionOp (r : Ref Transition) : TransitionOp → Act κ Reply
  | .value => return .number (← value r)
  | .setEnds start finish => do
    setEnds r start finish
    return .done
  | .retarget finish => do
    retarget r finish
    return .done
  | .restartSame => do
    restartSame r
    return .done
  | .flip => do
    flip r
    return .done
  | .shown => return .text ((← get).transitions.get r).shown
  | .start => return .number ((← get).transitions.get r).start
  | .finish => return .number ((← get).transitions.get r).finish

def systemOp (s : Ref System) : SystemOp → Act κ Reply
  | .add binding => do
    enlist s binding
    return .done
  | .tick => do
    tick s
    return .done

def operate : Op → Act κ Reply
  | .setMonotonic ns => do
    setMonotonic ns
    return .done
  | .newClock start => return .made (.clock (← newClock start))
  | .newLength setting => return .made (.length (← newLength setting))
  | .newDescription setting => return .made (.description (← newDescription setting))
  | .newDescriptionOfText name text => do
    let setting ← query fun _ => Setting.ofText name text
    return .made (.description (← newDescription setting))
  | .newDuration spec => return .made (.duration (← newDuration spec))
  | .newAnimation spec => return .made (.animation (← newAnimation spec))
  | .newTransition duration start finish =>
    return .made (.transition (← newTransition duration start finish))
  | .clone duration => return .made (.duration (← clone duration))
  | .newTarget => return .made (.target (← newTarget))
  | .newBinding target field transition =>
    return .made (.binding (← newBinding target field transition))
  | .newSystem policy => return .made (.system (← newSystem policy))
  | .onClock r op => clockOp r op
  | .onLength r op => lengthOp r op
  | .onDescription r op => descriptionOp r op
  | .onDuration d op => durationOp d op
  | .onTransition r op => transitionOp r op
  | .animate a values => do
    animate a values
    return .done
  | .onSystem s op => systemOp s op

end Act

namespace World

variable {κ : Type}

def step (w : World κ) (op : Op) : Except Fault Reply × World κ :=
  (Act.operate op).perform w

/-- Performs operations in turn: their outcomes, and the world that is left. -/
def run (w : World κ) : List Op → List (Except Fault Reply) × World κ
  | [] => ([], w)
  | op :: rest =>
    let (outcome, w) := w.step op
    let (outcomes, w) := w.run rest
    (outcome :: outcomes, w)

end World

def World.empty : World Unit :=
  { client := () }

end Tween
