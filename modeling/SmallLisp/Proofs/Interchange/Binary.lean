import Mathlib.Data.Nat.ModEq
import SmallLisp.Interchange.Binary

/-!
# Numbers as bytes, read back

What is written with a fixed number of bytes is read back, whatever follows it: an unsigned number
that fits (`number?_bigEndian`), and a signed one through its two's complement
(`toSigned_ofSigned`).
-/

namespace SmallLisp.Binary

/-! ## 1. Unsigned numbers -/

theorem length_bigEndian (width n : Nat) : (bigEndian width n).length = width := by
  induction width with
  | zero => rfl
  | succ width ih => rw [bigEndian, List.length_cons, ih]

theorem foldl_bigEndian (width n start : Nat) :
    (bigEndian width n).foldl (fun n b => 256 * n + b.toNat) start
      = 256 ^ width * start + n % 256 ^ width := by
  induction width generalizing start with
  | zero => simp [bigEndian, Nat.mod_one]
  | succ width ih =>
    have hbyte : (UInt8.ofNat (n / 256 ^ width % 256)).toNat = n / 256 ^ width % 256 :=
      UInt8.toNat_ofNat_of_lt' (Nat.mod_lt _ (by decide))
    rw [bigEndian, List.foldl_cons, ih]
    show 256 ^ width * (256 * start + (UInt8.ofNat (n / 256 ^ width % 256)).toNat) + _ = _
    rw [hbyte, Nat.mod_pow_succ, Nat.pow_succ, Nat.mul_add, Nat.mul_assoc]
    omega

/-- The bytes of a number that fits into them are those of the number. -/
theorem ofBigEndian_bigEndian {width n : Nat} (h : n < 256 ^ width) :
    ofBigEndian (bigEndian width n) = n := by
  unfold ofBigEndian
  rw [foldl_bigEndian, Nat.mod_eq_of_lt h, Nat.mul_zero, Nat.zero_add]

theorem take?_append {n : Nat} {front : Text} (h : front.length = n) (rest : Text) :
    take? n (front ++ rest) = some (front, rest) := by
  subst h
  simp [take?]

/-- **A number that fits is read back**, and what follows it is left. -/
theorem number?_bigEndian {width n : Nat} (h : n < 256 ^ width) (rest : Text) :
    number? width (bigEndian width n ++ rest) = some (n, rest) := by
  rw [number?, take?_append (length_bigEndian width n), Option.map_some]
  show some (ofBigEndian (bigEndian width n), rest) = _
  rw [ofBigEndian_bigEndian h]

/-! ## 2. Signed numbers -/

theorem ofSigned_lt (bits : Nat) (n : Int) : ofSigned bits n < 2 ^ bits := by
  have hpos : (0 : Int) < ((2 ^ bits : Nat) : Int) := Int.natCast_pos.mpr (Nat.two_pow_pos bits)
  have hlt := Int.emod_lt_of_pos n hpos
  have hge := Int.emod_nonneg n (Int.ne_of_gt hpos)
  show (n % ((2 ^ bits : Nat) : Int)).toNat < _
  omega

theorem ofSigned_of_nonneg {bits : Nat} {n : Int} (h : 0 ≤ n) (hn : n < ((2 ^ bits : Nat) : Int)) :
    ofSigned bits n = n.toNat := by
  show (n % ((2 ^ bits : Nat) : Int)).toNat = _
  rw [Int.emod_eq_of_lt h hn]

theorem ofSigned_of_neg {bits : Nat} {n : Int} (h : n < 0) (hn : -((2 ^ bits : Nat) : Int) ≤ n) :
    (ofSigned bits n : Int) = n + ((2 ^ bits : Nat) : Int) := by
  show ((n % ((2 ^ bits : Nat) : Int)).toNat : Int) = _
  rw [← Int.add_emod_right, Int.emod_eq_of_lt (by omega) (by omega)]
  omega

/-- **A signed number that fits is what its two's complement stands for.** -/
theorem toSigned_ofSigned {bits : Nat} {n : Int} (hlow : -((2 ^ bits : Nat) : Int) ≤ n)
    (hhigh : n < ((2 ^ bits : Nat) : Int)) :
    toSigned (bits + 1) (ofSigned (bits + 1) n) = n := by
  have hpow : (2 ^ (bits + 1) : Nat) = 2 * 2 ^ bits := by rw [Nat.pow_succ, Nat.mul_comm]
  show (if ofSigned (bits + 1) n < 2 ^ bits then ((ofSigned (bits + 1) n : Nat) : Int)
    else (ofSigned (bits + 1) n : Int) - ((2 ^ (bits + 1) : Nat) : Int)) = n
  rcases Int.lt_or_le n 0 with hneg | hpos
  · have hcode := ofSigned_of_neg hneg (show -((2 ^ (bits + 1) : Nat) : Int) ≤ n by omega)
    rw [if_neg (by omega), hcode]
    omega
  · have hcode := ofSigned_of_nonneg hpos (show n < ((2 ^ (bits + 1) : Nat) : Int) by omega)
    rw [if_pos (by omega), hcode]
    omega

end SmallLisp.Binary
