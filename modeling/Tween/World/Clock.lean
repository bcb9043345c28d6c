import Tween.World

namespace Tween

variable {κ : Type}

def nanosPerMilli : Int := 1000000

def World.now (w : World κ) : Clock → Int
  | .system => w.monotonic.fdiv nanosPerMilli
  | .manual r => (w.clocks.get r).now

namespace Act

def setMonotonic (ns : Int) : Act κ Unit :=
  modify fun w => { w with monotonic := ns }

def newClock (start : Int) : Act κ (Ref ManualClock) :=
  modifyGet fun w =>
    let (r, clocks) := w.clocks.add ⟨start⟩
    (r, { w with clocks })

def resetClock (r : Ref ManualClock) (now : Int) : Act κ Unit :=
  modify fun w => { w with clocks := w.clocks.set r ⟨now⟩ }

def advance (r : Ref ManualClock) (ms : Int) : Act κ Int := do
  if ms < 0 then throw .clockBackwards
  let now := ((← get).clocks.get r).now + ms
  resetClock r now
  return now

def newLength (s : Setting Int) : Act κ (Ref (Setting Int)) :=
  modifyGet fun w =>
    let (r, lengths) := w.lengths.add s
    (r, { w with lengths })

def newDescription (s : Setting Description) : Act κ (Ref (Setting Description)) :=
  modifyGet fun w =>
    let (r, descriptions) := w.descriptions.add s
    (r, { w with descriptions })

def changeLength (r : Ref (Setting Int)) (f : Setting Int → Setting Int) : Act κ Unit :=
  modify fun w => { w with lengths := w.lengths.modify r f }

def changeDescription (r : Ref (Setting Description))
    (f : Setting Description → Setting Description) : Act κ Unit :=
  modify fun w => { w with descriptions := w.descriptions.modify r f }

/-- Stores the whole number that a text spells; a text that spells none is noted. -/
def setLengthText (r : Ref (Setting Int)) (text : String) : Act κ Bool := do
  match ← query fun _ => Text.Whole.read? text with
  | some n =>
    changeLength r (·.set n)
    return true
  | none =>
    note (.invalidValue text ((← get).lengths.get r).name)
    return false

/-- Stores the description that a text spells; a text that spells none is noted. -/
def setDescriptionText (r : Ref (Setting Description)) (text : String) : Act κ Bool := do
  match ← query fun _ => Description.read? text with
  | some d =>
    changeDescription r (·.set d)
    return true
  | none =>
    note (.invalidValue text ((← get).descriptions.get r).name)
    return false

end Act

end Tween
