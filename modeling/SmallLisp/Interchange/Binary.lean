import SmallLisp.Text.Utf8

/-!
# Numbers as bytes

Unsigned numbers with a fixed number of bytes, the high byte first, and the reading of such a
number as a signed one.
-/

namespace SmallLisp.Binary

/-- The low `8 * width` bits of `n`, high byte first. -/
def bigEndian : Nat → Nat → Text
  | 0, _ => []
  | width + 1, n => UInt8.ofNat (n / Nat.pow 256 width % 256) :: bigEndian width n

/-- The number with these bytes, high byte first. -/
def ofBigEndian (bytes : Text) : Nat := bytes.foldl (fun n b => 256 * n + b.toNat) 0

/-- The number with `bits` bits, read as a signed number in two's complement. -/
def toSigned (bits n : Nat) : Int :=
  if n < Nat.pow 2 (bits - 1) then n else (n : Int) - Nat.pow 2 bits

/-- A signed number in two's complement with `bits` bits. -/
def ofSigned (bits : Nat) (n : Int) : Nat := (n % (Nat.pow 2 bits : Nat)).toNat

/-- The first `n` bytes and the rest, if there are that many. -/
def take? (n : Nat) (t : Text) : Option (Text × Text) :=
  let front := t.take n
  if front.length = n then some (front, t.drop n) else none

/-- A number of `width` bytes and the rest. -/
def number? (width : Nat) (t : Text) : Option (Nat × Text) :=
  (take? width t).map fun (front, rest) => (ofBigEndian front, rest)

end SmallLisp.Binary
