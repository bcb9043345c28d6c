import Tween.Number.Span

namespace Tween.Number

/-- The series of `exp y` for `y` up to one half, by Horner's rule over the terms `n, …, 1`. -/
def expSeries (p : Nat) (y : Span) : Nat → Nat → Span → Span
  | 0, _, acc => acc
  | terms + 1, n, acc => expSeries p y terms (n - 1) (.add (.one p) ((Span.mul p y acc).divNat n))

def halvings : Nat := 20

def guardPlaces : Nat := 64

def expSpan (p : Nat) (y : Span) : Span :=
  let terms := p / 10 + 8
  let start : Span := ⟨twoTo (p + guardPlaces), twoTo (p + guardPlaces + 1)⟩
  .squares (p + guardPlaces) halvings (expSeries (p + guardPlaces) y terms terms start)

def expEnds (negative : Bool) (m : Nat) (e : Int) (p : Nat) : Float × Float :=
  let unit := twoTo (p + guardPlaces)
  let v := expSpan p (.ofScaled (p + guardPlaces) m (e - halvings))
  if negative then (nearest false unit v.hi, nearest false unit v.lo)
  else (nearest false v.lo unit, nearest false v.hi unit)

def scaledAtLeast (m : Nat) (e : Int) (bound : Nat) : Bool :=
  if 0 ≤ e then bound ≤ m * twoTo (min e.toNat 64) else bound * twoTo (-e).toNat ≤ m

/-- The exponential function, rounded to the nearest double, where a C library may answer with one of
its neighbours. A finite argument whose value is too large is a fault. -/
def exp (x : Float) : Except Fault Float :=
  match parts x with
  | .notANumber => .ok x
  | .infinity .positive => .ok x
  | .infinity .negative => .ok 0.0
  | .zero _ => .ok 1.0
  | .finite .negative m e _ =>
    if scaledAtLeast m e 1100 then .ok 0.0
    else .ok (settle (expEnds true m e) 4 128)
  | .finite .positive m e _ =>
    if scaledAtLeast m e 1100 then .error .overflow
    else
      let y := settle (expEnds false m e) 4 128
      if y.isInf then .error .overflow else .ok y

/-- The sum of `2 / ((2 i + 1) · 3 ^ (2 i + 1))` over `terms` terms, each rounded down. -/
def lnTwoSeries (unit : Nat) : Nat → Nat → Nat → Nat
  | 0, _, _ => 0
  | terms + 1, odd, power =>
    2 * unit / (odd * power) + lnTwoSeries unit terms (odd + 2) (9 * power)

def lnTwo (p : Nat) : Span :=
  let terms := p / 3 + 2
  let s := lnTwoSeries (twoTo p) terms 1 3
  ⟨s, s + terms + 1⟩

/-- Both ends of `2 ^ (f / 2 ^ k + n)` as doubles, for `f < 2 ^ k`. -/
def powerEnds (f k : Nat) (n : Int) (p : Nat) : Float × Float :=
  let q := p + guardPlaces
  let y := (Span.mul q (.ofScaled q f (-(k : Int))) (lnTwo q)).divNat (twoTo halvings)
  let v := expSpan p y
  if 0 ≤ n then
    (nearest false (v.lo <<< n.toNat) (twoTo q), nearest false (v.hi <<< n.toNat) (twoTo q))
  else
    (nearest false v.lo (twoTo (q + (-n).toNat)), nearest false v.hi (twoTo (q + (-n).toNat)))

/-- Two to the power `± m · 2 ^ e`, for an exponent below 1100 in size. -/
def powerOfScaled (negative : Bool) (m : Nat) (e : Int) : Float :=
  if 0 ≤ e then
    let n := m <<< e.toNat
    if negative then nearest false 1 (twoTo n) else nearest false (twoTo n) 1
  else
    let k := (-e).toNat
    let y : Int := if negative then -(m : Int) else m
    let n := y.fdiv (twoTo k)
    settle (powerEnds (y.fmod (twoTo k)).toNat k n) 4 128

/-- Two to a power, rounded to the nearest double, where a C library may answer with one of its
neighbours. A finite exponent whose value is too large is a fault. -/
def twoPow (y : Float) : Except Fault Float :=
  match parts y with
  | .notANumber => .ok y
  | .infinity .positive => .ok y
  | .infinity .negative => .ok 0.0
  | .zero _ => .ok 1.0
  | .finite .negative m e _ =>
    if scaledAtLeast m e 1100 then .ok 0.0 else .ok (powerOfScaled true m e)
  | .finite .positive m e _ =>
    if scaledAtLeast m e 1100 then .error .overflow
    else
      let v := powerOfScaled false m e
      if v.isInf then .error .overflow else .ok v

end Tween.Number
