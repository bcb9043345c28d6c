import Tween.Number.Layout
import Tween.Text.Blank
import Tween.Text.Pattern

namespace Tween.Text

open Number (Decimal)

def isSign (c : Char) : Bool :=
  c = '+' || c = '-'

def isPoint (c : Char) : Bool :=
  c = '.'

def isExponentMark (c : Char) : Bool :=
  c = 'e' || c = 'E'

def digitsValue (digits : List Char) : Nat :=
  digits.foldl (fun n c => 10 * n + (c.toNat - '0'.toNat)) 0

def splitSign : List Char → Bool × List Char
  | c :: rest => if isSign c then (c = '-', rest) else (false, c :: rest)
  | [] => (false, [])

namespace Numeral

def mantissa : Pattern :=
  .alt (.seq (.many1 Char.isDigit) (.seq (.maybe (.one isPoint)) (.many Char.isDigit)))
    (.seq (.one isPoint) (.many1 Char.isDigit))

def exponent : Pattern :=
  .seq (.one isExponentMark) (.seq (.maybe (.one isSign)) (.many1 Char.isDigit))

def pattern : Pattern :=
  .seq (.maybe (.one isSign)) (.seq mantissa (.maybe exponent))

def decimal (text : List Char) : Decimal :=
  let whole := text.takeWhile Char.isDigit
  let (fraction, rest) :=
    match text.dropWhile Char.isDigit with
    | [] => ([], [])
    | c :: rest =>
      if isPoint c then (rest.takeWhile Char.isDigit, rest.dropWhile Char.isDigit)
      else ([], c :: rest)
  let (negative, digits) := splitSign (rest.drop 1)
  let power : Int := digitsValue digits
  ⟨digitsValue (whole ++ fraction), (if negative then -power else power) - fraction.length⟩

def value (text : List Char) : Float :=
  let (negative, body) := splitSign text
  let x := (decimal body).toFloat
  if negative then -x else x

end Numeral

namespace Whole

def unsignedPattern : Pattern :=
  .seq (.many isBlank) (.seq (.many1 Char.isDigit) (.many isBlank))

def pattern : Pattern :=
  .seq (.many isBlank)
    (.seq (.maybe (.one isSign)) (.seq (.many1 Char.isDigit) (.many isBlank)))

/-- The whole number that stands between blanks. Separator controls are not allowed there, and
its digits, leading zeros among them, are limited. -/
def value (text : List Char) : Except Fault Int :=
  if text.any isSeparator then .error .strayBlank
  else
    let (negative, digits) := splitSign (trim text)
    if digits.length ≤ Number.digitLimit then
      .ok (if negative then -(digitsValue digits : Int) else digitsValue digits)
    else .error .tooManyDigits

def read? (text : String) : Except Fault (Option Int) :=
  if pattern.fits text.toList then
    match value text.toList with
    | .ok n => .ok (some n)
    | .error fault => .error fault
  else .ok none

end Whole

end Tween.Text
