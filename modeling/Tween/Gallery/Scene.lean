import Tween.Gallery.Hall
import Tween.Gallery.Plot

namespace Tween.Gallery

def drawLabel (w : World Hall) (fontHeight : Int) (y : Int) (lane : Lane) : Canvas Unit := do
  let description := (w.descriptions.get lane.setting).value
  drawText lane.title labelColor 10 (y + laneHeight / 2 - fontHeight)
  let detail := (← Number.integerText description.length) ++ "ms  done " ++
    Nat.repr lane.completed
  drawText detail dimText 10 (y + laneHeight / 2 + 2)

def drawCurve (w : World Hall) (color : Color) (y : Int) (lane : Lane) : Canvas Unit := do
  let d := lane.animation.duration
  let fraction ← w.fraction d
  let current := if w.phase d = .running then some fraction else none
  drawPlot (w.descriptions.get lane.setting).value.easing color
    ⟨labelWidth, y + 6, curveWidth, laneHeight - 12⟩ current

def drawRail (w : World Hall) (color : Color) (y : Int) (lane : Lane) : Canvas Unit := do
  draw (.rect trackBackground (labelWidth + curveWidth) y trackWidth laneHeight)
  let middle := y + laneHeight / 2
  draw (.line trackRail (.whole railLeft) (.whole middle) (.whole railRight) (.whole middle)
    (some 2))
  draw (.circle color.dimmed railLeft middle 4)
  draw (.circle color.dimmed railRight middle 4)
  draw (.circle color (← Number.truncate (w.orbX lane)) middle orbRadius)

def drawLane (w : World Hall) (fontHeight : Int) (i : Nat) (lane : Lane) : Canvas Unit := do
  let y := i * laneHeight
  let color := laneColor i
  draw (.rect laneBackground 0 y screenWidth laneHeight)
  let bottom := Coord.whole (y + laneHeight - 1)
  draw (.line laneBorder (.whole 0) bottom (.whole screenWidth) bottom none)
  drawLabel w fontHeight y lane
  drawCurve w color y lane
  drawRail w color y lane

def drawLanesFrom (w : World Hall) (fontHeight : Int) : Nat → List Lane → Canvas Unit
  | _, [] => return
  | i, lane :: rest => do
    drawLane w fontHeight i lane
    drawLanesFrom w fontHeight (i + 1) rest

def drawLanes (w : World Hall) (fontHeight : Int) : Canvas Unit :=
  drawLanesFrom w fontHeight 0 w.client.lanes

def drawStatus (fontHeight length : Int) : Canvas Unit := do
  let y := lanesHeight
  draw (.rect statusBackground 0 y screenWidth statusHeight)
  draw (.line laneBorder (.whole 0) (.whole y) (.whole screenWidth) (.whole y) none)
  let text := "[Space] Go  [R] Reverse  [+/-] Length (" ++ (← Number.integerText length) ++
    "ms)  [Esc] Quit"
  drawText text dimText 8 (y + statusHeight / 2 - fontHeight / 2)

def drawScene (w : World Hall) (fontHeight : Int) : Canvas Unit := do
  draw (.fill background)
  drawLanes w fontHeight
  drawStatus fontHeight w.client.length
  draw .flip

end Tween.Gallery
