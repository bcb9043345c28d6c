import Tween.Bezier
import Tween.Number.Exponential
import Tween.Number.Sine

namespace Tween

open Number (exp sine twoPow)

inductive Curve where
  | linear
  | circle
  | sigmoid
  | easeOutElastic
deriving DecidableEq, Repr

namespace Curve

def all : List Curve := [linear, circle, sigmoid, easeOutElastic]

def name : Curve → String
  | linear => "linear"
  | circle => "circle"
  | sigmoid => "sigmoid"
  | easeOutElastic => "easeOutElastic"

def ofName? (name : String) : Option Curve :=
  all.find? (·.name = name)

def names : List String :=
  (all.map name).mergeSort (· ≤ ·)

def squareRoot (x : Float) : Except Fault Float :=
  if x < 0.0 then .error .negativeRoot else .ok x.sqrt

def pi : Float := 3.141592653589793

/-- What the logistic curve is multiplied by, so that it ends at one. -/
def sigmoidMax : Float :=
  match exp (-6.0) with
  | .ok y => 1.0 + y
  | .error _ => 1.0

def elasticPeriod : Float := 0.6

def elasticShift : Float := elasticPeriod / 4.0

def eval : Curve → Float → Except Fault Float
  | linear, x => .ok x
  | circle, x => squareRoot (2.0 * x - x * x)
  | sigmoid, x => do
    let y ← exp (-12.0 * x + 6.0)
    return sigmoidMax / (1.0 + y)
  | easeOutElastic, x =>
    if x == 0.0 then .ok 0.0
    else if x == 1.0 then .ok 1.0
    else do
      let decay ← twoPow (-10.0 * x)
      let wave ← sine ((x - elasticShift) * (2.0 * pi) / elasticPeriod)
      return decay * wave + 1.0

end Curve

inductive Easing where
  | named (curve : Curve)
  | bezier (curve : Bezier)
  /-- Any other function, with a label to tell it by. -/
  | function (label : String) (apply : Float → Except Fault Float)

namespace Easing

instance : Inhabited Easing := ⟨.named .circle⟩

def ofName (name : String) : Except Fault Easing :=
  match Curve.ofName? name with
  | some curve => .ok (.named curve)
  | none => .error (.unknownEasing name)

def eval : Easing → Float → Except Fault Float
  | .named curve, x => curve.eval x
  | .bezier curve, x => .ok (curve.eval x)
  | .function _ apply, x => apply x

def shown : Easing → String
  | .named curve => "NamedEasing(name=" ++ Text.quoted curve.name ++ ")"
  | .bezier curve => curve.shown
  | .function label _ => label

def ofCurve (curve : Curve) : Easing :=
  .function curve.name curve.eval

def reciprocal : Easing :=
  .function "reciprocal" fun x => if x == 0.0 then .error .divisionByZero else .ok (1.0 / x)

end Easing

end Tween
