import Tween.Number.Decimal

namespace Tween.Number

def digitLimit : Nat := 4300

def naturalDigits (n : Nat) : List Char :=
  Nat.toDigits 10 n

def integerDigits (n : Int) : List Char :=
  if n < 0 then '-' :: naturalDigits n.natAbs else naturalDigits n.natAbs

/-- A whole number as text; one of too many digits is a fault. -/
def integerText (n : Int) : Except Fault String :=
  let digits := naturalDigits n.natAbs
  if digits.length ≤ digitLimit then
    .ok (String.ofList (if n < 0 then '-' :: digits else digits))
  else .error .tooManyDigits

def exponentText (e : Int) : List Char :=
  let digits := naturalDigits e.natAbs
  'e' :: (if e < 0 then '-' else '+') :: (if digits.length < 2 then '0' :: digits else digits)

def placed (digits : List Char) (top : Int) : List Char :=
  if top < -4 ∨ 16 ≤ top then
    match digits with
    | [] => []
    | [d] => d :: exponentText top
    | d :: rest => d :: '.' :: rest ++ exponentText top
  else if top < 0 then '0' :: '.' :: (List.replicate (-top - 1).toNat '0' ++ digits)
  else
    let whole := top.toNat + 1
    if digits.length ≤ whole then
      digits ++ List.replicate (whole - digits.length) '0' ++ ['.', '0']
    else digits.take whole ++ '.' :: digits.drop whole

def signed (sign : Float.Model.UnpackedFloat.Sign) (text : List Char) : List Char :=
  match sign with
  | .negative => '-' :: text
  | .positive => text

def floatDigits (x : Float) : List Char :=
  match parts x with
  | .notANumber => ['n', 'a', 'n']
  | .infinity sign => signed sign ['i', 'n', 'f']
  | .zero sign => signed sign ['0', '.', '0']
  | .finite sign m e _ =>
    let d := Decimal.shortest m e
    let digits := naturalDigits d.digits
    signed sign (placed digits (d.exponent + digits.length - 1))

def floatText (x : Float) : String :=
  String.ofList (floatDigits x)

/-- The nearest whole number to `num / den`, half to even. -/
def roundHalfEven (num den : Nat) : Nat :=
  let q := num / den
  match compare (2 * (num % den)) den with
  | .lt => q
  | .gt => q + 1
  | .eq => q + q % 2

def onePlaceText (x : Float) : String :=
  String.ofList <|
    match parts x with
    | .notANumber => ['n', 'a', 'n']
    | .infinity sign => signed sign ['i', 'n', 'f']
    | .zero sign => signed sign ['0', '.', '0']
    | .finite sign m e _ =>
      let tenths := if 0 ≤ e then (m * 10) <<< e.toNat else roundHalfEven (m * 10) (twoTo (-e).toNat)
      signed sign (naturalDigits (tenths / 10) ++ '.' :: naturalDigits (tenths % 10))

end Tween.Number
