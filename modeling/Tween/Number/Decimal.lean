import Tween.Number.Nearest

namespace Tween.Number

structure Decimal where
  digits : Nat
  exponent : Int
deriving DecidableEq, Repr

namespace Decimal

def toFloat (d : Decimal) : Float :=
  Float.ofScientific d.digits (d.exponent < 0) d.exponent.natAbs

/-- The same number without zeros at the end of its digits; `fuel` bounds their count. -/
def strip : Nat → Decimal → Decimal
  | 0, d => d
  | fuel + 1, d =>
    if d.digits ≠ 0 ∧ d.digits % 10 = 0 then strip fuel ⟨d.digits / 10, d.exponent + 1⟩ else d

def width (n : Nat) : Nat :=
  (Nat.toDigits 10 n).length

def leading (num den : Nat) : Int :=
  if den ≤ num then (width (num / den) : Int) - 1
  else
    let w := width (den / num)
    if num * tenTo (w - 1) = den then 1 - (w : Int) else -(w : Int)

/-- The multiple of `10 ^ exponent` at or below `num / den`, and the remainder over what it is
a remainder of. -/
def grid (num den : Nat) (exponent : Int) : Nat × Nat × Nat :=
  if 0 ≤ exponent then
    let unit := den * tenTo exponent.toNat
    (num / unit, num % unit, unit)
  else
    let scaled := num * tenTo (-exponent).toNat
    (scaled / den, scaled % den, den)

/-- The grid point next to `num / den` that reads back as `x`, if there is one. -/
def onGrid? (x : Float) (num den : Nat) (exponent : Int) : Option Decimal :=
  let (below, rest, unit) := grid num den exponent
  let lower : Decimal := ⟨below, exponent⟩
  let upper : Decimal := ⟨below + 1, exponent⟩
  let reads := fun d : Decimal => d.toFloat.toBits == x.toBits
  if rest = 0 then if reads lower then some lower else none
  else
    match reads lower, reads upper with
    | false, false => none
    | true, false => some lower
    | false, true => some upper
    | true, true =>
      match compare (2 * rest) unit with
      | .lt => some lower
      | .gt => some upper
      | .eq => some (if below % 2 = 0 then lower else upper)

/-- The first of the grids of `count`, `count + 1`, … digits that has a point reading back. -/
def firstGrid? (x : Float) (num den : Nat) (top : Int) : Nat → Nat → Option Decimal
  | 0, _ => none
  | fuel + 1, count =>
    match onGrid? x num den (top - (count - 1 : Nat)) with
    | some d => some d
    | none => firstGrid? x num den top fuel (count + 1)

def exact (m : Nat) (e : Int) : Decimal :=
  if 0 ≤ e then ⟨m <<< e.toNat, 0⟩ else ⟨m * Nat.pow 5 (-e).toNat, e⟩

/-- The shortest decimal that reads back as the double `m · 2 ^ e`. -/
def shortest (m : Nat) (e : Int) : Decimal :=
  let num := if 0 ≤ e then m <<< e.toNat else m
  let den := if 0 ≤ e then 1 else twoTo (-e).toNat
  let x := nearest false num den
  strip 400 ((firstGrid? x num den (leading num den) 17 1).getD (exact m e))

end Decimal

end Tween.Number
