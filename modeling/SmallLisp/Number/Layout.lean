import SmallLisp.Number.Decimal

/-!
# How numbers are laid out

One choice of digits (`digitsOf`), three layouts of them: positional, with an exponent, and the
general one that takes the exponent only for very small or large numbers.
-/

namespace SmallLisp

/-- Positional digits before the point; at least one. -/
def Digits.wholePart (d : Digits) : List Char :=
  if d.point ≤ 0 then ['0']
  else
    let n := d.point.toNat
    d.digits.take n ++ List.replicate (n - d.digits.length) '0'

/-- Positional digits after the point; possibly none. -/
def Digits.fractionPart (d : Digits) : List Char :=
  if d.point ≤ 0 then
    if d.digits.isEmpty then [] else List.replicate (-d.point).toNat '0' ++ d.digits
  else d.digits.drop d.point.toNat

/-- The positional layout: `1200`, `0.05`. -/
def Digits.positional (d : Digits) : List Char :=
  match d.fractionPart with
  | [] => d.wholePart
  | frac => d.wholePart ++ '.' :: frac

/-- The layout with an exponent of a sign and at least two digits: `1.5e+06`. -/
def Digits.scientific (d : Digits) : List Char :=
  let lead := match d.digits with
    | [] => ['0']
    | [c] => [c]
    | c :: more => c :: '.' :: more
  let e := if d.digits.isEmpty then 0 else d.point - 1
  let places := Nat.toDigits 10 e.natAbs
  lead ++ 'e' :: (if e < 0 then '-' else '+')
    :: (List.replicate (2 - places.length) '0' ++ places)

/-- A float laid out by `layout`, or the name of what is not finite. -/
def layOut (layout : Digits → List Char) (x : Float) : String :=
  if x.isNaN then "NaN"
  else if x.isInf then if isNegative x then "-Inf" else "+Inf"
  else
    let text := layout (digitsOf x)
    String.ofList (if isNegative x then '-' :: text else text)

namespace Number

/-- Numbers in source form never take an exponent, which the reader of source does not know. -/
def plain (x : Float) : String := layOut Digits.positional x

/-- The general layout takes an exponent when the leading digit stands left of the sixth place
    before the point, or right of the fourth after it. -/
def general (x : Float) : String :=
  layOut (fun d =>
    if d.digits.isEmpty || (-4 < d.point && d.point ≤ 6) then d.positional else d.scientific) x

/-- A finite number in interchange text: whole numbers below `2 ^ 52` keep one zero after the point,
    and magnitudes below `10 ^ -6` or from `10 ^ 21` on take an exponent. -/
def interchange (x : Float) : String :=
  let (num, den) := fraction x
  layOut (fun d =>
    if num = 0 then ['0', '.', '0']
    else if x.abs < 1e-6 || 1e21 ≤ x.abs then d.scientific
    else if num % den = 0 && num < hiddenBit * den then d.positional ++ ['.', '0']
    else d.positional) x

end Number

end SmallLisp
