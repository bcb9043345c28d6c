import Tween.World.Transition

namespace Tween

variable {κ : Type}

def writeField : List (String × Float) → String → Float → List (String × Float)
  | [], name, x => [(name, x)]
  | (n, y) :: rest, name, x => if n = name then (n, x) :: rest else (n, y) :: writeField rest name x

def World.durationOf (w : World κ) (b : Ref Binding) : Ref Duration :=
  (w.transitions.get (w.bindings.get b).transition).duration

structure Group where
  duration : Ref Duration
  members : List (Ref Binding)

/-- Bindings by duration: durations in the order of their first binding, bindings in theirs. -/
def World.groups (w : World κ) (members : List (Ref Binding)) : List Group :=
  (members.map w.durationOf).eraseDups.map fun d =>
    ⟨d, members.filter (w.durationOf · = d)⟩

namespace Act

def newTarget : Act κ (Ref Target) :=
  modifyGet fun w =>
    let (r, targets) := w.targets.add {}
    (r, { w with targets })

def newBinding (target : Ref Target) (field : String) (transition : Ref Transition) :
    Act κ (Ref Binding) :=
  modifyGet fun w =>
    let (r, bindings) := w.bindings.add ⟨target, field, transition⟩
    (r, { w with bindings })

def newSystem (policy : Policy) : Act κ (Ref System) :=
  modifyGet fun w =>
    let (r, systems) := w.systems.add { policy }
    (r, { w with systems })

def write (target : Ref Target) (field : String) (x : Float) : Act κ Unit := do
  modify fun w =>
    { w with targets := w.targets.modify target fun t => ⟨writeField t.fields field x⟩ }
  log (.wrote target field x)

def setMembers (s : Ref System) (members : List (Ref Binding)) : Act κ Unit :=
  modify fun w => { w with systems := w.systems.modify s fun x => { x with members } }

def enlist (s : Ref System) (b : Ref Binding) : Act κ Unit := do
  setMembers s (((← get).systems.get s).members ++ [b])

/-- Takes the first listing of a binding off the list. -/
def delist (s : Ref System) (b : Ref Binding) : Act κ Unit := do
  let members := ((← get).systems.get s).members
  if b ∈ members then setMembers s (members.erase b) else throw .notListed

def update (b : Ref Binding) : Act κ Unit := do
  let binding := (← get).bindings.get b
  write binding.target binding.field (← value binding.transition)

/-- Takes a binding off the list and reports it if its completion is due. -/
def retire (s : Ref System) (report : Ref Binding → Act κ Unit) (due : Bool) (b : Ref Binding) :
    Act κ Unit := do
  delist s b
  if due then report b

/-- The part of a tick for the bindings of one duration. -/
def settle (s : Ref System) (report : Ref Binding → Act κ Unit) (g : Group) : Act κ Unit := do
  g.members.forM update
  if (← phase g.duration) ≠ .running then
    let due ← consume g.duration
    g.members.forM (retire s report due)

def tickWith (s : Ref System) (report : Ref Binding → Act κ Unit) : Act κ Unit := do
  let w ← get
  (w.groups (w.systems.get s).members).forM (settle s report)

def follow (s : Ref System) (policy : Policy) (b : Ref Binding) : Act κ Unit := do
  match policy with
  | .ignore => return
  | .record => log (.reported b)
  | .restart =>
    log (.reported b)
    start ((← get).durationOf b)
    enlist s b
  | .clear =>
    log (.reported b)
    setMembers s []

def tick (s : Ref System) : Act κ Unit := do
  tickWith s (follow s ((← get).systems.get s).policy)

end Act

end Tween
