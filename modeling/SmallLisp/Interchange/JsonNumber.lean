import SmallLisp.Interchange.Datum

/-!
# JSON numbers

A number is a run of digits, signs, points and exponent marks. It is read in one of three ways:

* only digits, and few enough for 64 bits: a whole number;
* else quickly, by keeping up to 52 bits of the digits and counting places. The quick way puts up
  with missing digits. It counts in eight bits, so that the count of a very long run wraps;
* else in full (`decimal?`), if the digits or the exponent are too many for the quick way, or the
  power of ten is too large. The full way wants all digits to be there.
-/

namespace SmallLisp.Json

/-! ## 1. Digits -/

/-- The byte of a decimal digit. -/
def isDigit (b : UInt8) : Bool := 0x30 ≤ b && b ≤ 0x39

/-- The mark before an exponent. -/
def isExponentMark (b : UInt8) : Bool := b == 0x65 || b == 0x45

/-- The bytes that can be part of a number. -/
def isNumeric (b : UInt8) : Bool :=
  isDigit b || b == 0x2B || b == 0x2D || b == 0x2E || isExponentMark b

/-- The number written with these digits. -/
def natOf (ds : Text) : Nat := ds.foldl (fun n b => 10 * n + (b.toNat - 48)) 0

/-- The sign in front of an exponent, and its digits: `true` if it is negative. -/
def splitSign : Text → Bool × Text
  | 0x2B :: digits => (false, digits)
  | 0x2D :: digits => (true, digits)
  | digits => (false, digits)

/-! ## 2. The full way -/

/-- The size of an exponent, which takes no more digits once it has reached ten thousand. -/
def exponentSize (ds : Text) : Nat :=
  ds.foldl (fun n b => if n < 10000 then 10 * n + (b.toNat - 48) else n) 0

/-- The exponent at the end of a number: nothing, or a mark, an optional sign and digits. -/
def exponent? : Text → Option Int
  | [] => some 0
  | mark :: rest =>
    let (negative, digits) := splitSign rest
    if isExponentMark mark && !digits.isEmpty && digits.all isDigit then
      some (if negative then -(exponentSize digits : Int) else exponentSize digits)
    else none

/-- The decimal that a text writes: digits with at most one point among them, and an exponent. -/
def decimal? (t : Text) : Option Decimal :=
  let whole := t.takeWhile isDigit
  let rest := t.dropWhile isDigit
  let (frac, rest) := match rest with
    | 0x2E :: more => (more.takeWhile isDigit, more.dropWhile isDigit)
    | _ => ([], rest)
  let digits := whole ++ frac
  if digits.isEmpty then none
  else (exponent? rest).map fun e => ⟨natOf digits, e - frac.length⟩

/-! ## 3. The quick way -/

/-- Why the quick way gives no answer. -/
inductive Refusal where
  /-- The text is no number. -/
  | malformed
  /-- The number has to be read in full. -/
  | unsuited
deriving DecidableEq, Repr

/-- What is known of a number after some of its digits. Places are counted in eight bits. -/
structure Tally where
  /-- The digits, as long as there was room. -/
  mantissa : Nat
  /-- How many digits the mantissa has. -/
  kept : Int8
  /-- How many digits were counted, zeros in front apart. -/
  counted : Int8
  /-- After how many of them the point is, once it was seen. -/
  point : Option Int8
deriving DecidableEq, Repr

namespace Tally

/-- The largest mantissa. One below it has room for another digit. -/
def largest : Nat := 0xFFFFFFFFFFFFF

/-- Nothing was seen yet. -/
def start : Tally := ⟨0, 0, 0, none⟩

/-- Takes a digit. While no digit is counted a zero only moves the point; without room it is counted
    and not kept, and another digit is refused. -/
def push (t : Tally) (d : Nat) : Option Tally :=
  if d = 0 ∧ t.counted = 0 then some { t with point := t.point.map (· - 1) }
  else if t.mantissa < largest then
    some { t with mantissa := 10 * t.mantissa + d, kept := t.kept + 1, counted := t.counted + 1 }
  else if d = 0 then some { t with counted := t.counted + 1 }
  else none

/-- Takes digits and a point up to the exponent, and gives the text from there. -/
def scan (t : Tally) : Text → Except Refusal (Tally × Text)
  | [] => .ok (t, [])
  | b :: rest =>
    if isDigit b then
      match t.push (b.toNat - 48) with
      | some t => t.scan rest
      | none => .error .unsuited
    else if b = 0x2E then
      if t.point.isSome then .error .malformed
      else scan { t with point := some t.counted } rest
    else if isExponentMark b then .ok (t, b :: rest)
    else .error .malformed

/-- The decimal of a tally whose point is moved by an exponent. The powers of ten that floats hold
    exactly go up to `10 ^ 22`; past that the rest of the power must leave the mantissa within
    `10 ^ 15`. -/
def finish (t : Tally) (exponent : Int8) : Except Refusal Decimal :=
  if t.mantissa = 0 then .ok ⟨0, 0⟩
  else
    let power := (t.point.getD t.counted + exponent - t.kept).toInt
    if largest < t.mantissa ∨ power < -22 ∨ 37 < power
        ∨ 1000000000000000 < t.mantissa * Nat.pow 10 (power - 22).toNat ∧ 22 < power then
      .error .unsuited
    else .ok ⟨t.mantissa, power⟩

end Tally

/-- The exponent from its mark on. It may lack its digits and has at most two. -/
def quickExponent : Text → Except Refusal Int8
  | [] => .ok 0
  | _ :: rest =>
    let (negative, digits) := splitSign rest
    if 2 < digits.length then .error .unsuited
    else if !digits.all isDigit then .error .malformed
    else
      let e := Int8.ofNat (natOf digits)
      .ok (if negative then -e else e)

/-- The decimal that a text writes, read in the quick way. -/
def quickDecimal (t : Text) : Except Refusal Decimal :=
  match Tally.start.scan t with
  | .error e => .error e
  | .ok (tally, rest) =>
    match quickExponent rest with
    | .error e => .error e
    | .ok exponent => tally.finish exponent

/-! ## 4. Numbers -/

/-- A number with a point, an exponent or many digits, without its sign. -/
def float? (t : Text) : Option Float :=
  match quickDecimal t with
  | .ok d => some d.toFloat
  | .error .malformed => none
  | .error .unsuited => (decimal? t).map Decimal.toFloat |>.filter (!·.isInf)

/-- The number written by a run of numeric bytes: an integer if it has only digits and fits into 64
    bits, else a float. -/
def number? (run : Text) : Option Datum :=
  match run with
  | [] => none
  | b :: more =>
    let negative := b == 0x2D
    let digits := if negative then more else run
    let n := natOf digits
    if digits.all isDigit && n < 0x10000000000000000 then
      if negative then if n ≤ 0x8000000000000000 then some (.int64 (-n)) else none
      else if n < 0x8000000000000000 then some (.int64 n) else none
    else (float? digits).map fun x => .float64 (signed negative x)

end SmallLisp.Json
