import Tween.Number.Span

namespace Tween.Number

/-- `arctan (1 / q)` as an alternating sum of terms rounded down: the positive and the negative
part. -/
def arctanSeries (unit q : Nat) : Nat → Nat → Nat → Nat × Nat
  | 0, _, _ => (0, 0)
  | terms + 1, odd, power =>
    let (plus, minus) := arctanSeries unit q terms (odd + 2) (q * q * power)
    (unit / (odd * power) + minus, plus)

def arctanInverse (p q terms : Nat) : Span :=
  let (plus, minus) := arctanSeries (twoTo p) q terms 1 q
  ⟨plus - minus - (terms + 1), plus - minus + (terms + 1)⟩

/-- Half of π, from `π / 4 = 4 arctan (1 / 5) - arctan (1 / 239)`. -/
def halfPi (p : Nat) : Span :=
  ((arctanInverse p 5 (p / 4 + 2)).mulNat 8).sub ((arctanInverse p 239 (p / 15 + 2)).mulNat 2)

/-- The series `1 - u / (d (d + 1)) · (1 - u / ((d + 2) (d + 3)) · …)`, innermost factor first. -/
def waveSeries (p : Nat) (u : Span) : Nat → Nat → Span → Span
  | 0, _, acc => acc
  | terms + 1, d, acc =>
    waveSeries p u terms (d - 2) (.sub (.one p) ((Span.mul p u acc).divNat (d * (d + 1))))

def sineSpan (p : Nat) (r : Span) : Span :=
  let terms := p / 8 + 8
  .mul p r (waveSeries p (.mul p r r) terms (2 * terms) ⟨0, twoTo p⟩)

def cosineSpan (p : Nat) (r : Span) : Span :=
  let terms := p / 8 + 8
  waveSeries p (.mul p r r) terms (2 * terms - 1) ⟨0, twoTo p⟩

def sineEnds (negative : Bool) (m : Nat) (e : Int) (p : Nat) : Float × Float :=
  let q := p + (m.log2 + 1 + e).toNat
  let x := Span.ofScaled q m e
  let right := halfPi q
  let n := (2 * x.lo + right.lo) / (2 * right.lo)
  let turn := right.mulNat n
  let below := x.hi < turn.lo
  let r := if below then turn.sub x else x.sub turn
  let v := if n % 2 = 0 then sineSpan q r else cosineSpan q r
  let flipped := negative != ((n % 4 ≥ 2) != (below && n % 2 = 0))
  (nearest flipped v.lo (twoTo q), nearest flipped v.hi (twoTo q))

/-- The sine, rounded to the nearest double, where a C library may answer with one of its neighbours.
Below `2 ^ -27` it rounds to its argument, and an infinity has none. -/
def sine (x : Float) : Except Fault Float :=
  match parts x with
  | .notANumber => .ok x
  | .infinity _ => .error .infiniteAngle
  | .zero _ => .ok x
  | .finite sign m e _ =>
    if m.log2 + 1 + e ≤ -27 then .ok x
    else .ok (settle (sineEnds (sign == .negative) m e) 5 128)

end Tween.Number
