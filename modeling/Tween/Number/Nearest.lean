import Tween.Fault

namespace Tween.Number

open Float.Model (UnpackedFloat Format)

def twoTo (k : Nat) : Nat :=
  Nat.pow 2 k

def tenTo (k : Nat) : Nat :=
  Nat.pow 10 k

/-- The mantissa, exponent and sign of a double, or which special value it is. -/
def parts (x : Float) : UnpackedFloat :=
  x.toModel.unpack

/-- The double that has these parts, which must already be rounded. -/
def ofParts (x : UnpackedFloat) : Float :=
  .ofModel (Float.Model.pack x)

def signOf (negative : Bool) : UnpackedFloat.Sign :=
  if negative then .negative else .positive

/-- The double nearest to `num / den`, with the sign kept on a zero. -/
def nearest (negative : Bool) (num den : Nat) : Float :=
  if hn : 0 < num then
    if hd : 0 < den then
      ofParts (.div .binary64 (.finite (signOf negative) num 0 hn) (.finite .positive den 0 hd))
    else ofParts (.infinity (signOf negative))
  else ofParts (.zero (signOf negative))

/-- The double nearest to a whole number; too large a number is a fault. -/
def ofInt (n : Int) : Except Fault Float :=
  let x := nearest (n < 0) n.natAbs 1
  if x.isInf then .error .overflow else .ok x

def quotient (a b : Int) : Except Fault Float :=
  if b = 0 then .error .divisionByZero
  else
    let x := nearest ((a < 0) != (b < 0)) a.natAbs b.natAbs
    if x.isInf then .error .overflow else .ok x

/-- The whole part, with the fraction cut off toward zero. -/
def truncate (x : Float) : Except Fault Int :=
  match parts x with
  | .notANumber => .error .wholeOfNaN
  | .infinity _ => .error .wholeOfInfinity
  | .zero _ => .ok 0
  | .finite sign m e _ =>
    .ok (sign.apply (if 0 ≤ e then m <<< e.toNat else m >>> (-e).toNat))

end Tween.Number
