import Tween.Fault
import Tween.Gallery.Layout

namespace Tween.Gallery

/-- A coordinate: whole, or on the way between whole ones. -/
inductive Coord where
  | whole (n : Int)
  | real (x : Float)
deriving DecidableEq

inductive Call where
  | init
  | setMode (width height : Int)
  | setCaption (text : String)
  | font (name : String) (size : Int)
  | tick (rate : Int)
  | fill (color : Color)
  | rect (color : Color) (x y width height : Int)
  | line (color : Color) (x₁ y₁ x₂ y₂ : Coord) (width : Option Int)
  | lines (color : Color) (closed : Bool) (points : List (Float × Float)) (width : Int)
  | circle (color : Color) (x y radius : Int)
  | render (text : String) (smooth : Bool) (color : Color)
  | blit (text : String) (x y : Int)
  | flip
  | quit
deriving DecidableEq

def Call.name : Call → String
  | .init => "init"
  | .setMode .. => "set_mode"
  | .setCaption _ => "set_caption"
  | .font .. => "SysFont"
  | .tick _ => "tick"
  | .fill _ => "fill"
  | .rect .. => "rect"
  | .line .. => "line"
  | .lines .. => "lines"
  | .circle .. => "circle"
  | .render .. => "render"
  | .blit .. => "blit"
  | .flip => "flip"
  | .quit => "quit"

abbrev Canvas (α : Type) := ExceptT Fault (StateM (Array Call)) α

def draw (call : Call) : Canvas Unit :=
  modify (·.push call)

def drawText (text : String) (color : Color) (x y : Int) : Canvas Unit := do
  draw (.render text true color)
  draw (.blit text x y)

def Canvas.calls (canvas : Canvas Unit) : Option Fault × Array Call :=
  match canvas.run #[] with
  | (.ok _, calls) => (none, calls)
  | (.error fault, calls) => (some fault, calls)

end Tween.Gallery
