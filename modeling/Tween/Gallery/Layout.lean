namespace Tween.Gallery

structure Color where
  red : Int
  green : Int
  blue : Int
deriving DecidableEq, Inhabited

def Color.dimmed (c : Color) : Color :=
  ⟨c.red / 3, c.green / 3, c.blue / 3⟩

def framesPerSecond : Int := 60

def laneHeight : Int := 100
def labelWidth : Int := 180
def curveWidth : Int := 120
def trackWidth : Int := 440
def statusHeight : Int := 36

def laneEasings : List (String × String) :=
  [("linear", "linear"), ("circle", "circle"), ("sigmoid", "sigmoid"),
    ("easeOutElastic", "easeOutElastic"), ("css ease", "cubic-bezier 0.25 0.1 0.25 1")]

def screenWidth : Int := labelWidth + curveWidth + trackWidth
def lanesHeight : Int := laneHeight * laneEasings.length
def screenHeight : Int := lanesHeight + statusHeight

def defaultLength : Int := 800
def lengthStep : Int := 200
def minLength : Int := 200
def maxLength : Int := 3000

def orbRadius : Int := 10
def trackPad : Int := 20

def railLeft : Int := labelWidth + curveWidth + trackPad
def railRight : Int := labelWidth + curveWidth + trackWidth - trackPad

def leftEnd : Float := .ofInt railLeft
def rightEnd : Float := .ofInt railRight

def background : Color := ⟨20, 20, 30⟩
def laneBackground : Color := ⟨30, 30, 45⟩
def laneBorder : Color := ⟨50, 50, 70⟩
def curveBackground : Color := ⟨15, 15, 25⟩
def trackBackground : Color := ⟨25, 25, 40⟩
def trackRail : Color := ⟨60, 60, 80⟩
def statusBackground : Color := ⟨35, 35, 50⟩
def dimText : Color := ⟨120, 120, 140⟩
def labelColor : Color := ⟨180, 180, 200⟩
def white : Color := ⟨255, 255, 255⟩

def laneColors : List Color :=
  [⟨0, 220, 220⟩, ⟨255, 160, 40⟩, ⟨60, 220, 80⟩, ⟨220, 80, 220⟩, ⟨240, 220, 90⟩]

def laneColor (i : Nat) : Color :=
  laneColors.getD (i % laneColors.length) default

end Tween.Gallery
