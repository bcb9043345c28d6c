import Tween.Easing
import Tween.Gallery.Canvas

namespace Tween.Gallery

open Number (ofInt truncate)

structure Box where
  x : Int
  y : Int
  width : Int
  height : Int
deriving DecidableEq

def plotPad : Int := 8

def headroom : Float := 0.25

def plotSteps : Nat := 60

structure PlotArea where
  left : Int
  width : Int
  top : Float
  height : Float
deriving DecidableEq

def Box.area (b : Box) : Except Fault PlotArea := do
  let height := (← ofInt (b.height - 2 * plotPad)) / (1.0 + 2.0 * headroom)
  let top := (← ofInt (b.y + plotPad)) + height * headroom
  return ⟨b.x + plotPad, b.width - 2 * plotPad, top, height⟩

def PlotArea.screenY (f : PlotArea) (v : Float) : Float :=
  f.top + f.height - v * f.height

def PlotArea.toScreen (f : PlotArea) (t v : Float) : Except Fault (Float × Float) := do
  let x := (← ofInt f.left) + t * (← ofInt f.width)
  return (x, f.screenY v)

def PlotArea.sample (f : PlotArea) (easing : Easing) (t : Float) : Except Fault (Float × Float) := do
  f.toScreen t (← easing.eval t)

def sampleAt (i : Nat) : Except Fault Float :=
  Number.quotient i plotSteps

def PlotArea.samples (f : PlotArea) (easing : Easing) : Except Fault (List (Float × Float)) :=
  (List.range (plotSteps + 1)).mapM fun i => do f.sample easing (← sampleAt i)

def drawPlot (easing : Easing) (color : Color) (box : Box) (current : Option Float) :
    Canvas Unit := do
  let f ← box.area
  draw (.rect curveBackground box.x box.y box.width box.height)
  let corner := Coord.real (f.screenY 0.0)
  draw (.line dimText (.whole f.left) corner (.whole (f.left + f.width)) corner none)
  draw (.line dimText (.whole f.left) corner (.whole f.left) (.real (f.screenY 1.0)) none)
  draw (.lines color false (← f.samples easing) 2)
  if let some t := current then
    let (x, y) ← f.sample easing t
    let x ← truncate x
    let y ← truncate y
    draw (.circle white x y 4)
    draw (.circle color x y 3)

end Tween.Gallery
