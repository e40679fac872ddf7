import SmallLisp.Text.Quoted

/-!
# Hexadecimal text

Bytes as pairs of hexadecimal digits. Writing uses lower case; reading takes either case and
reports the first byte that is no digit, or an odd number of digits.
-/

namespace SmallLisp.Hex

/-- The digit with value `n < 16`. -/
def digit (n : Nat) : UInt8 := UInt8.ofNat (if n < 10 then 48 + n else 87 + n)

/-- Two lower case digits per byte. -/
def encode (t : Text) : Text := t.flatMap fun b => [digit (b.toNat / 16), digit (b.toNat % 16)]

/-- The value of a digit. -/
def value? (b : UInt8) : Option Nat :=
  let n := b.toNat
  if 48 ≤ n && n ≤ 57 then some (n - 48)
  else if 97 ≤ n && n ≤ 102 then some (n - 87)
  else if 65 ≤ n && n ≤ 70 then some (n - 55)
  else none

/-- Why a text is not hexadecimal. -/
inductive Flaw where
  | badByte (b : UInt8)
  | oddLength
deriving DecidableEq, Repr

/-- A byte named as a code point, with its character where that can be shown. -/
def codePoint (b : UInt8) : Text :=
  let c := Char.ofNat b.toNat
  let digits := String.ofList ((hexDigits 4 b.toNat).toList.map Char.toUpper)
  let code : Text := "U+" ++ digits
  if isPrintable c then code ++ " '" ++ Utf8.encodeChar c ++ "'" else code

/-- The wording of a flaw. -/
def Flaw.message : Flaw → Text
  | .badByte b => "encoding/hex: invalid byte: " ++ codePoint b
  | .oddLength => "encoding/hex: odd length hex string"

/-- Reads pairs of digits. A bad byte is reported before an odd length, also when it is the odd last
    one. -/
def decode : Text → Except Flaw Text
  | [] => .ok []
  | [a] =>
    match value? a with
    | some _ => .error .oddLength
    | none => .error (.badByte a)
  | a :: b :: rest =>
    match value? a, value? b with
    | none, _ => .error (.badByte a)
    | some _, none => .error (.badByte b)
    | some x, some y =>
      match decode rest with
      | .ok bytes => .ok (UInt8.ofNat (16 * x + y) :: bytes)
      | .error flaw => .error flaw

end SmallLisp.Hex
