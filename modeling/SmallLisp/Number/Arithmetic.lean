import SmallLisp.Number.Decimal

/-!
# Arithmetic

The five binary operations on floats. Four are those of IEEE 754; the remainder is exact and takes
the sign of its first operand.
-/

namespace SmallLisp

/-- A binary operation on numbers. -/
inductive Arith where
  | add
  | sub
  | mul
  | div
  | rem
deriving DecidableEq, Repr

namespace Arith

/-- The operations in the order of their codes. -/
def all : List Arith := [add, sub, mul, div, rem]

/-- The name an operation goes by in source. -/
def symbol : Arith → String
  | add => "+"
  | sub => "-"
  | mul => "*"
  | div => "/"
  | rem => "%"

end Arith

/-- The float nearest to `m / 2 ^ k`, which is the decimal `m · 5 ^ k · 10 ^ -k`. -/
def dyadic (m k : Nat) : Float := Decimal.toFloat ⟨m * Nat.pow 5 k, -k⟩

/-- The remainder of `x` by `y`: what is left of the magnitude of `x` after taking away that of `y`
    as often as it goes, with the sign of `x`. Undefined for an infinite `x` and for `y = 0`. -/
def remainder (x y : Float) : Float :=
  if x.isNaN || y.isNaN || x.isInf || y == 0 then 0.0 / 0.0
  else if y.isInf then x
  else
    let (a, b) := fraction x
    let (c, d) := fraction y
    -- both denominators are powers of two, so the larger is a common one
    let common := max b d
    let r := (a * (common / b)) % (c * (common / d))
    signed (isNegative x) (dyadic r (Nat.log2 common))

namespace Arith

/-- The value of an operation. -/
def apply : Arith → Float → Float → Float
  | add, x, y => x + y
  | sub, x, y => x - y
  | mul, x, y => x * y
  | div, x, y => x / y
  | rem, x, y => remainder x y

/-- The left operand that stands in when there is only one: `(- x)` is `0 - x`. -/
def unitElement : Arith → Float
  | mul | div => 1
  | _ => 0

/-- The operation with this code, by name; a code that is not in use has the name `?`. -/
def nameOfCode (code : Int) : String :=
  match code with
  | .ofNat n => (all[n]?.map symbol).getD "?"
  | .negSucc _ => "?"

/-- The operation with this code applied to two numbers; zero for a code that is not in use. -/
def applyCode (code : Int) (x y : Float) : Float :=
  match code with
  | .ofNat n => (all[n]?.map fun op => op.apply x y).getD 0
  | .negSucc _ => 0

end Arith

end SmallLisp
