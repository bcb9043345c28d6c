import Tween.Easing
import Tween.Text.Numeral

namespace Tween

open Text (words)

/-- The length and easing of an animation, and the text that named the easing. -/
structure Description where
  length : Int
  easingName : String
  easing : Easing

namespace Description

instance : Inhabited Description := ⟨⟨0, Curve.circle.name, .named .circle⟩⟩

def text (d : Description) : Except Fault String := do
  return (← Number.integerText d.length) ++ "ms " ++ d.easingName

def shown (d : Description) : Except Fault String := do
  return "AnimationDescription(length_ms=" ++ (← Number.integerText d.length) ++
    ", easing_name=" ++ Text.quoted d.easingName ++ ", easing=" ++ d.easing.shown ++ ")"

/-- The values of the numerals that begin a list of words, at most `most` of them, and the words
that are left. -/
def readNumbers : Nat → List (List Char) → List Float × List (List Char)
  | most + 1, word :: rest =>
    if Text.Numeral.pattern.fits word then
      let (values, left) := readNumbers most rest
      (Text.Numeral.value word :: values, left)
    else ([], word :: rest)
  | _, left => ([], left)

def epsilon : Float := 2.220446049250313e-16

/-- Whether two numbers differ by no more than a rounding of their sum. -/
def nearlyEqual (a b : Float) : Bool :=
  (a - b).abs ≤ epsilon * (a + b).abs

/-- The curve that an easing name spells after the keyword, if the keyword comes first. -/
def namedBezier? (name : String) : Option Bezier :=
  match words name.toList with
  | word :: rest =>
    if word = Bezier.keyword.toList then some (.complete (readNumbers 4 rest).1) else none
  | [] => none

/-- Whether two curves nearly agree. The last coordinate of the first is held against itself, so
it counts only when it is infinite. -/
def nearlyAgree (a b : Bezier) : Bool :=
  nearlyEqual a.x1 b.x1 && nearlyEqual a.y1 b.y1 && nearlyEqual a.x2 b.x2 &&
    nearlyEqual a.y2 a.y2

def same (a b : Description) : Bool :=
  if a.easingName = b.easingName then a.length = b.length
  else
    match namedBezier? a.easingName, namedBezier? b.easingName with
    | some c, some d => a.length = b.length && nearlyAgree c d
    | _, _ => false

/-- What hash tables are to tell descriptions apart by. -/
def hashKey (d : Description) : Int :=
  d.length

end Description

end Tween
