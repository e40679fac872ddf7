import SmallLisp.Text.Utf8

/-!
# BLAKE2b with a digest of 64 bits

The hash by which constants are told apart and scripts are checked: BLAKE2b without a key, with a
digest of eight bytes that is read with the low byte first.
-/

namespace SmallLisp.Blake2b

/-- The words the hash starts from. -/
def initial : Vector UInt64 8 :=
  #v[0x6A09E667F3BCC908, 0xBB67AE8584CAA73B, 0x3C6EF372FE94F82B, 0xA54FF53A5F1D36F1,
    0x510E527FADE682D1, 0x9B05688C2B3E6C1F, 0x1F83D9ABFB41BD6B, 0x5BE0CD19137E2179]

/-- The order in which each round takes the words of a block. -/
def schedule : List (Vector (Fin 16) 16) :=
  let rounds : List (Vector (Fin 16) 16) :=
    [#v[0, 1, 2, 3, 4, 5, 6, 7, 8, 9, 10, 11, 12, 13, 14, 15],
      #v[14, 10, 4, 8, 9, 15, 13, 6, 1, 12, 0, 2, 11, 7, 5, 3],
      #v[11, 8, 12, 0, 5, 2, 15, 13, 10, 14, 3, 6, 7, 1, 9, 4],
      #v[7, 9, 3, 1, 13, 12, 11, 14, 2, 6, 5, 10, 4, 0, 15, 8],
      #v[9, 0, 5, 7, 2, 4, 10, 15, 14, 1, 11, 12, 6, 8, 3, 13],
      #v[2, 12, 6, 10, 0, 11, 8, 3, 4, 13, 7, 5, 15, 14, 1, 9],
      #v[12, 5, 1, 15, 14, 13, 4, 10, 0, 7, 6, 3, 9, 2, 8, 11],
      #v[13, 11, 7, 14, 12, 1, 3, 9, 5, 0, 15, 4, 8, 6, 2, 10],
      #v[6, 15, 14, 9, 11, 3, 0, 8, 12, 2, 13, 7, 1, 4, 10, 5],
      #v[10, 2, 8, 4, 7, 6, 1, 5, 15, 11, 9, 14, 3, 12, 13, 0]]
  rounds ++ rounds.take 2

/-- Rotation to the right. -/
def rotate (x k : UInt64) : UInt64 := (x >>> k) ||| (x <<< (64 - k))

/-- Mixes two words into four words of the state. -/
def mix (v : Vector UInt64 16) (a b c d : Fin 16) (x y : UInt64) : Vector UInt64 16 :=
  let va := v[a] + v[b] + x
  let vd := rotate (v[d] ^^^ va) 32
  let vc := v[c] + vd
  let vb := rotate (v[b] ^^^ vc) 24
  let va := va + vb + y
  let vd := rotate (vd ^^^ va) 16
  let vc := vc + vd
  let vb := rotate (vb ^^^ vc) 63
  (((v.set a va).set b vb).set c vc).set d vd

/-- One round: the columns of the state, then its diagonals. -/
def round (m : Vector UInt64 16) (v : Vector UInt64 16) (s : Vector (Fin 16) 16) :
    Vector UInt64 16 :=
  let v := mix v 0 4 8 12 m[s[0]] m[s[1]]
  let v := mix v 1 5 9 13 m[s[2]] m[s[3]]
  let v := mix v 2 6 10 14 m[s[4]] m[s[5]]
  let v := mix v 3 7 11 15 m[s[6]] m[s[7]]
  let v := mix v 0 5 10 15 m[s[8]] m[s[9]]
  let v := mix v 1 6 11 12 m[s[10]] m[s[11]]
  let v := mix v 2 7 8 13 m[s[12]] m[s[13]]
  mix v 3 4 9 14 m[s[14]] m[s[15]]

/-- The word with these bytes, low byte first; missing bytes are zero. -/
def word (bytes : Text) : UInt64 :=
  bytes.foldr (fun b n => (n <<< 8) ||| b.toUInt64) 0

/-- The sixteen words of a block. -/
def words (block : Text) : Vector UInt64 16 :=
  Vector.ofFn fun i => word ((block.drop (8 * i.val)).take 8)

/-- Takes in a block, after which `count` bytes have been taken in altogether. -/
def compress (h : Vector UInt64 8) (block : Text) (count : Nat) (last : Bool) : Vector UInt64 8 :=
  let v : Vector UInt64 16 := h ++ initial
  let v := v.set 12 (v[12] ^^^ UInt64.ofNat count)
  let v := v.set 13 (v[13] ^^^ UInt64.ofNat (count / 0x10000000000000000))
  let v := if last then v.set 14 (v[14] ^^^ 0xFFFFFFFFFFFFFFFF) else v
  let v := schedule.foldl (round (words block)) v
  Vector.ofFn fun (i : Fin 8) =>
    h[i] ^^^ v.get ⟨i.val, by omega⟩ ^^^ v.get ⟨i.val + 8, by omega⟩

/-- Takes in the bytes block by block; the last block may be short, or empty if there are no bytes.
    The fuel bounds the number of blocks. -/
def absorb : Nat → Vector UInt64 8 → Nat → Text → Vector UInt64 8
  | 0, h, _, _ => h
  | fuel + 1, h, count, bytes =>
    let block := bytes.take 128
    match bytes.drop 128 with
    | [] => compress h block (count + block.length) true
    | rest => absorb fuel (compress h block (count + 128) false) (count + 128) rest

/-- The hash of some bytes. -/
def sum (bytes : Text) : UInt64 :=
  -- the parameters: a digest of eight bytes, no key, one leaf
  let start := initial.set 0 (initial[0] ^^^ 0x01010008)
  (absorb (bytes.length / 128 + 1) start 0 bytes)[0]

end SmallLisp.Blake2b
