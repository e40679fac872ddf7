import SmallLisp.Text.Utf8

/-!
# Whole numbers as options give them

A sign, a prefix for the base (`0b`, `0o` or a plain `0`, `0x`; none for ten) and digits, which may
be separated by underscores. The number has to fit 64 bits.
-/

namespace SmallLisp.Numeral

/-- Why a text gives no number. -/
inductive Flaw where
  | malformed
  | outOfRange
deriving DecidableEq, Repr

/-- The value of a digit or a letter, of either case. -/
def digit? (b : UInt8) : Option Nat :=
  let n := b.toNat
  if 0x30 ≤ n ∧ n ≤ 0x39 then some (n - 0x30)
  else if 0x61 ≤ n ∧ n ≤ 0x7A then some (n - 0x61 + 10)
  else if 0x41 ≤ n ∧ n ≤ 0x5A then some (n - 0x41 + 10)
  else none

/-- The underscore between digits. -/
def separator : UInt8 := 0x5F

/-- The number that digits in a base add to `n`. The first digit that is none, or leads out of 64
    bits, decides the flaw. -/
def magnitude (base n : Nat) : Text → Except Flaw Nat
  | [] => .ok n
  | b :: t =>
    if b = separator then magnitude base n t
    else
      match digit? b with
      | none => .error .malformed
      | some d =>
        if base ≤ d then .error .malformed
        else if 0x10000000000000000 ≤ n * base + d then .error .outOfRange
        else magnitude base (n * base + d) t

/-- Every underscore stands between two digits. `after` says whether one stands before the text. -/
def separated (after : Bool) : Text → Bool
  | [] => after
  | b :: t => if b = separator then after && separated false t else separated true t

/-- A base that a letter after a zero stands for. -/
def lettered? (b : UInt8) : Option Nat :=
  if b = 0x62 ∨ b = 0x42 then some 2
  else if b = 0x6F ∨ b = 0x4F then some 8
  else if b = 0x78 ∨ b = 0x58 then some 16
  else none

/-- A number without a sign. The prefix of a base counts as a digit before an underscore. -/
def unsigned (t : Text) : Except Flaw Nat :=
  let read (base : Nat) (after : Bool) (written digits : Text) : Except Flaw Nat :=
    match magnitude base 0 digits with
    | .error e => .error e
    | .ok n => if separated after written then .ok n else .error .malformed
  match t with
  | [] => .error .malformed
  | 0x30 :: b :: c :: more =>
    match lettered? b with
    | some base => read base true (c :: more) (c :: more)
    | none => read 8 false t (b :: c :: more)
  | 0x30 :: more => read 8 false t more
  | t => read 10 false t t

/-- A number with or without a sign. -/
def integer (t : Text) : Except Flaw Int :=
  let signed (negative : Bool) (digits : Text) : Except Flaw Int :=
    match unsigned digits with
    | .error e => .error e
    | .ok n =>
      if negative then if n ≤ 0x8000000000000000 then .ok (-(n : Int)) else .error .outOfRange
      else if n < 0x8000000000000000 then .ok n else .error .outOfRange
  match t with
  | 0x2D :: digits => signed true digits
  | 0x2B :: digits => signed false digits
  | digits => signed false digits

end SmallLisp.Numeral
