import Tween.Text.Quoted

namespace Tween

inductive Fault where
  | twoLengths
  | clockBackwards
  | unknownEasing (name : String)
  | invalidDefault (text name : String)
  | tooManyValues (count : Nat)
  | negativeRoot
  | infiniteAngle
  /-- A result beyond the largest double. -/
  | overflow
  | divisionByZero
  /-- A whole number of more digits than are read or written. -/
  | tooManyDigits
  /-- A separator control character beside the digits of a whole number. -/
  | strayBlank
  | wholeOfNaN
  | wholeOfInfinity
  | notListed
  /-- The completion of a binding that belongs to no lane. -/
  | foreignBinding (field : String)
deriving DecidableEq, Repr

def Fault.message? : Fault → Option String
  | .twoLengths => some "length and description are mutually exclusive"
  | .clockBackwards => some "cannot advance a clock backwards"
  | .unknownEasing name => some ("Unknown easing " ++ Text.quoted name)
  | .invalidDefault text name =>
    some ("Invalid default " ++ Text.quoted text ++ " for option " ++ name)
  | .tooManyValues count =>
    some ("animate() takes at most 2 values (" ++ Nat.repr count ++ " given)")
  | _ => none

end Tween
