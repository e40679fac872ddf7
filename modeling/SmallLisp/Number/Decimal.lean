/-!
# Decimal numbers and floats

Every number of the language is a 64-bit float, and it is read and written in decimal. This file
fixes both directions:

* `Decimal.toFloat` rounds a decimal to the nearest float;
* `shortest` gives a float the fewest digits that read back as that very float, and of two such
  decimals the nearer (an exact tie goes to the even digit).
-/

namespace SmallLisp

/-! ## 1. Reading -/

/-- The decimal `coefficient · 10 ^ exponent`. -/
structure Decimal where
  coefficient : Nat
  exponent : Int
deriving DecidableEq, Repr

/-- How many decimal digits `n` has. -/
def digitCount (n : Nat) : Nat := (Nat.toDigits 10 n).length

/-- Positive infinity. -/
def infinity : Float := 1.0 / 0.0

/-- The float nearest to a decimal. Past the largest and below the least magnitude of a float the
    power of ten is not computed. -/
def Decimal.toFloat (d : Decimal) : Float :=
  let magnitude : Int := digitCount d.coefficient + d.exponent
  if d.coefficient = 0 ∨ magnitude < -400 then 0
  else if 400 < magnitude then infinity
  else if d.exponent < 0 then Float.ofScientific d.coefficient true (-d.exponent).toNat
  else Float.ofScientific d.coefficient false d.exponent.toNat

/-- The number written with these digits; other characters count as zero. -/
def natOfDigits (ds : List Char) : Nat :=
  ds.foldl (fun n c => 10 * n + (if c.isDigit then c.toNat - 48 else 0)) 0

/-- A magnitude with its sign put back, so that minus zero is kept. -/
def signed (negative : Bool) (x : Float) : Float := if negative then -x else x

/-! ## 2. Writing -/

/-- The sign bit, which minus zero has too. -/
def isNegative (x : Float) : Bool := x.toBits ≥ 0x8000000000000000

/-- The bit that the significand of a normal float has and does not show, `2 ^ 52`. -/
def hiddenBit : Nat := 0x10000000000000

/-- The magnitude of a finite float as an exact fraction. -/
def fraction (x : Float) : Nat × Nat :=
  let bits : Nat := x.toBits.toNat % 0x8000000000000000
  let biased : Nat := bits / hiddenBit
  let low : Nat := bits % hiddenBit
  let (m, q) : Nat × Int :=
    if biased = 0 then (low, -1074) else (low + hiddenBit, (biased : Int) - 1075)
  if q < 0 then (m, Nat.pow 2 (-q).toNat) else (m * Nat.pow 2 q.toNat, 1)

/-- No float has its first digit as many places after the point. -/
def deepestPlace : Nat := 350

/-- The least `p` with `num / den < 10 ^ p`, for a fraction that is not below the deepest place. -/
def leadingPlace (num den : Nat) : Int :=
  (digitCount (num * Nat.pow 10 deepestPlace / den) : Int) - deepestPlace

/-- The decimal reads as the float `x`. -/
def Decimal.readsAs (d : Decimal) (x : Float) : Bool := d.toFloat == x

/-- Of the two decimals with `n` digits that enclose the positive float `x`, the nearer one that
    reads back as `x`. The float is `num / den`, with its first digit right after the place
    `place`. -/
def atPrecision (x : Float) (num den : Nat) (place : Int) (n : Nat) : Option Decimal :=
  let unit := place - n
  let top := num * Nat.pow 10 (-unit).toNat
  let bottom := den * Nat.pow 10 unit.toNat
  let below : Decimal := ⟨top / bottom, unit⟩
  let above : Decimal := ⟨top / bottom + 1, unit⟩
  let gap := 2 * (top % bottom)
  match below.readsAs x, above.readsAs x with
  | true, true =>
    if gap < bottom ∨ (gap = bottom ∧ below.coefficient % 2 = 0) then some below else some above
  | true, false => some below
  | false, true => some above
  | false, false => none

/-- The shortest decimal that reads back as the positive float `x`. Seventeen digits always do. -/
def shortest (x : Float) : Decimal :=
  let (num, den) := fraction x
  let place := leadingPlace num den
  ((List.range 17).findSome? fun k => atPrecision x num den place (k + 1)).getD ⟨num / den, 0⟩

/-- Significant digits with the place of the point: the value is `0.d₁d₂… · 10 ^ point`. -/
structure Digits where
  digits : List Char
  point : Int
deriving DecidableEq, Repr

/-- The significant digits of a decimal, without zeros at the end. -/
def Decimal.toDigits (d : Decimal) : Digits :=
  let ds := Nat.toDigits 10 d.coefficient
  ⟨(ds.reverse.dropWhile (· == '0')).reverse, ds.length + d.exponent⟩

/-- The digits that stand for a finite float; zero has none. -/
def digitsOf (x : Float) : Digits :=
  if x == 0 then ⟨[], 0⟩ else (shortest x.abs).toDigits

end SmallLisp
