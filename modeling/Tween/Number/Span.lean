import Tween.Number.Nearest

namespace Tween.Number

/-- A closed interval of multiples of `2 ^ -p`, for a precision `p` known from the context. -/
structure Span where
  lo : Nat
  hi : Nat
deriving DecidableEq, Repr

def ceilDiv (a b : Nat) : Nat :=
  (a + (b - 1)) / b

namespace Span

def one (p : Nat) : Span :=
  ⟨twoTo p, twoTo p⟩

def ofScaled (p m : Nat) (e : Int) : Span :=
  let shift := e + p
  if 0 ≤ shift then ⟨m <<< shift.toNat, m <<< shift.toNat⟩
  else ⟨m >>> (-shift).toNat, ceilDiv m (twoTo (-shift).toNat)⟩

def mul (p : Nat) (a b : Span) : Span :=
  ⟨(a.lo * b.lo) >>> p, ceilDiv (a.hi * b.hi) (twoTo p)⟩

def divNat (a : Span) (n : Nat) : Span :=
  ⟨a.lo / n, ceilDiv a.hi n⟩

def add (a b : Span) : Span :=
  ⟨a.lo + b.lo, a.hi + b.hi⟩

def sub (a b : Span) : Span :=
  ⟨a.lo - b.hi, a.hi - b.lo⟩

def mulNat (a : Span) (n : Nat) : Span :=
  ⟨a.lo * n, a.hi * n⟩

def squares (p : Nat) : Nat → Span → Span
  | 0, a => a
  | k + 1, a => squares p k (mul p a a)

end Span

/-- Tries the precisions `p`, `2 p`, `4 p`, … until the two ends agree, at most `fuel` times. -/
def settle (ends : Nat → Float × Float) : Nat → Nat → Float
  | 0, p => (ends p).1
  | fuel + 1, p =>
    let (lo, hi) := ends p
    if lo.toBits = hi.toBits then lo else settle ends fuel (2 * p)

end Tween.Number
