import Tween.Description

namespace Tween.Description

open Text (Pattern isBlank words)

inductive TimeUnit where
  | milliseconds
  | seconds
deriving DecidableEq, Repr

def TimeUnit.ofText? (text : List Char) : Option TimeUnit :=
  if text = ['m', 's'] then some .milliseconds
  else if text = ['s'] then some .seconds
  else none

/-- What a text begins with: a numeral, the characters up to the next blank, and the rest. -/
structure Head where
  numeral : List Char
  unit : List Char
  rest : List Char
deriving DecidableEq, Repr

def before (text rest : List Char) : List Char :=
  text.take (text.length - rest.length)

/-- Splits a text into its head and the rest. The numeral gives characters back as long as
nothing is left for the unit. -/
def head? (text : List Char) : Option Head :=
  (Pattern.many isBlank).run (fun start =>
    Text.Numeral.pattern.run (fun stop =>
      (Pattern.many isBlank).run (fun unit =>
        (Pattern.many1 (!isBlank ·)).run (fun rest =>
          some ⟨before start stop, before unit rest, rest⟩) unit) stop) start) text

/-- The easing of the words after the unit, and its name; every word has to be used. -/
def readEasing? : List (List Char) → Option (String × Easing)
  | [] => some (Curve.circle.name, .named .circle)
  | word :: rest =>
    match Curve.ofName? (String.ofList word) with
    | some curve => if rest = [] then some (curve.name, .named curve) else none
    | none =>
      if word = Bezier.keyword.toList then
        let (values, left) := readNumbers 4 rest
        let curve := Bezier.complete values
        if left = [] then some (curve.name, .bezier curve) else none
      else none

/-- The whole milliseconds of a numeral and a unit; a length must be finite and not negative. -/
def readLength? (numeral : List Char) (unit : TimeUnit) : Option Int :=
  let x := Text.Numeral.value numeral
  let length :=
    match unit with
    | .milliseconds => x
    | .seconds => x * 1000.0
  if length.isFinite && !(length < 0.0) then (Number.truncate length).toOption else none

def readForm? (text : List Char) : Option Description := do
  let head ← head? text
  let unit ← TimeUnit.ofText? head.unit
  let (name, easing) ← readEasing? (words head.rest)
  let length ← readLength? head.numeral unit
  return ⟨length, name, easing⟩

def read? (text : String) : Except Fault (Option Description) :=
  if Text.Whole.unsignedPattern.fits text.toList then
    match Text.Whole.value text.toList with
    | .ok n => .ok (some ⟨n, Curve.circle.name, .named .circle⟩)
    | .error fault => .error fault
  else .ok (readForm? text.toList)

end Tween.Description
