import Tween.Number.Layout

namespace Tween

open Number (floatText)

structure Bezier where
  x1 : Float
  y1 : Float
  x2 : Float
  y2 : Float
deriving DecidableEq

namespace Bezier

def ease : Bezier := ⟨0.25, 0.1, 0.25, 1.0⟩

def point (t p0 p1 p2 p3 : Float) : Float :=
  let u := 1.0 - t
  u * u * u * p0 + 3.0 * u * u * t * p1 + 3.0 * u * t * t * p2 + t * t * t * p3

def slope (t p1 p2 : Float) : Float :=
  3.0 * (1.0 - t) * (1.0 - t) * p1 + 6.0 * (1.0 - t) * t * (p2 - p1) + 3.0 * t * t * (1.0 - p2)

def hasMinus (x : Float) : Bool :=
  x.toBits >>> 63 != 0

def infinityLike (x : Float) : Float :=
  if hasMinus x then -1.0 / 0.0 else 1.0 / 0.0

/-- The step from a residual and a slope; a zero slope counts with its sign. -/
def newtonStep (f df : Float) : Float :=
  if df == 0.0 then infinityLike f * (if hasMinus df then -1.0 else 1.0) else f / df

def maxSteps : Nat := 10

def tolerance : Float := 1e-6

def residual (c : Bezier) (x t : Float) : Float :=
  point t 0.0 c.x1 c.x2 1.0 - x

def solveFrom (c : Bezier) (x : Float) : Nat → Float → Float
  | 0, t => t
  | fuel + 1, t =>
    let f := c.residual x t
    if f.abs < tolerance then t
    else solveFrom c x fuel (t - newtonStep f (slope t c.x1 c.x2))

/-- The second coordinate of the curve where its first one is `x`. -/
def eval (c : Bezier) (x : Float) : Float :=
  point (c.solveFrom x maxSteps x) 0.0 c.y1 c.y2 1.0

/-- Whether the coordinates are equal as numbers: a zero equals the other zero, NaN nothing. -/
def agrees (a b : Bezier) : Bool :=
  a.x1 == b.x1 && a.y1 == b.y1 && a.x2 == b.x2 && a.y2 == b.y2

def keyword : String := "cubic-bezier"

def name (c : Bezier) : String :=
  keyword ++ " " ++ floatText c.x1 ++ " " ++ floatText c.y1 ++ " " ++ floatText c.x2 ++ " " ++
    floatText c.y2

def shown (c : Bezier) : String :=
  "CubicBezier(x1=" ++ floatText c.x1 ++ ", y1=" ++ floatText c.y1 ++ ", x2=" ++ floatText c.x2 ++
    ", y2=" ++ floatText c.y2 ++ ")"

/-- The curve of the coordinates given, in order; those left out are taken from the straight
line. -/
def complete (given : List Float) : Bezier where
  x1 := given.getD 0 0.0
  y1 := given.getD 1 0.0
  x2 := given.getD 2 1.0
  y2 := given.getD 3 1.0

end Bezier

end Tween
