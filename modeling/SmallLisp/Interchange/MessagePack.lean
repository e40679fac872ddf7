import SmallLisp.Interchange.Binary
import SmallLisp.Interchange.Datum

/-!
# MessagePack

The binary interchange format. Strings, arrays and maps have a header with their length, of which
the shortest form is written; numbers are written as 64-bit floats. Reading takes every form of the
format, and one value from the front of the bytes.
-/

namespace SmallLisp.MessagePack

/-! ## 1. Headers -/

/-- The header of a string of `n` bytes. -/
def stringHeader (n : Nat) : Text :=
  if n < 32 then [UInt8.ofNat (0xA0 + n)]
  else if n < 0x100 then 0xD9 :: Binary.bigEndian 1 n
  else if n < 0x10000 then 0xDA :: Binary.bigEndian 2 n
  else 0xDB :: Binary.bigEndian 4 n

/-- The header of an array of `n` elements. -/
def arrayHeader (n : Nat) : Text :=
  if n < 16 then [UInt8.ofNat (0x90 + n)]
  else if n < 0x10000 then 0xDC :: Binary.bigEndian 2 n
  else 0xDD :: Binary.bigEndian 4 n

/-- The header of a map of `n` entries. -/
def mapHeader (n : Nat) : Text :=
  if n < 16 then [UInt8.ofNat (0x80 + n)]
  else if n < 0x10000 then 0xDE :: Binary.bigEndian 2 n
  else 0xDF :: Binary.bigEndian 4 n

/-! ## 2. Writing -/

/-- A string with its header. -/
def writeString (s : Text) : Text := stringHeader s.length ++ s

/-- A truth value. -/
def writeBool (b : Bool) : Text := if b then [0xC3] else [0xC2]

/-- A float with all its bits. -/
def writeFloat (x : Float) : Text := 0xCB :: Binary.bigEndian 8 x.toBits.toNat

/-- A whole number in the shortest form for signed numbers. -/
def writeInt (n : Int) : Text :=
  if 0 ≤ n then
    if n < 128 then [UInt8.ofNat n.toNat]
    else if n < 0x8000 then 0xD1 :: Binary.bigEndian 2 n.toNat
    else if n < 0x80000000 then 0xD2 :: Binary.bigEndian 4 n.toNat
    else 0xD3 :: Binary.bigEndian 8 n.toNat
  else if -32 ≤ n then [UInt8.ofNat (Binary.ofSigned 8 n)]
  else if -0x80 ≤ n then 0xD0 :: Binary.bigEndian 1 (Binary.ofSigned 8 n)
  else if -0x8000 ≤ n then 0xD1 :: Binary.bigEndian 2 (Binary.ofSigned 16 n)
  else if -0x80000000 ≤ n then 0xD2 :: Binary.bigEndian 4 (Binary.ofSigned 32 n)
  else 0xD3 :: Binary.bigEndian 8 (Binary.ofSigned 64 n)

/-- A natural number in the shortest form for unsigned numbers. -/
def writeNat (n : Nat) : Text :=
  if n < 128 then [UInt8.ofNat n]
  else if n < 0x100 then 0xCC :: Binary.bigEndian 1 n
  else if n < 0x10000 then 0xCD :: Binary.bigEndian 2 n
  else if n < 0x100000000 then 0xCE :: Binary.bigEndian 4 n
  else 0xCF :: Binary.bigEndian 8 n

mutual

/-- A datum in MessagePack. What has no form of its own is written as nothing. -/
def write : Datum → Text
  | .null | .time | .extension => [0xC0]
  | .bool b => writeBool b
  | .float64 x | .float32 x => writeFloat x
  | .int64 n | .int n | .int8 n => writeInt n
  | .uint64 n => writeNat n
  | .string s | .bytes s => writeString s
  | .array items => arrayHeader items.length ++ writeAll items
  | .map entries => mapHeader entries.length ++ writeEntries entries

/-- Data one after the other. -/
def writeAll : List Datum → Text
  | [] => []
  | d :: ds => write d ++ writeAll ds

/-- The entries of a map one after the other. -/
def writeEntries : List (Text × Datum) → Text
  | [] => []
  | (key, d) :: more => writeString key ++ write d ++ writeEntries more

end

/-! ## 3. Reading -/

/-- The float with single precision that has these bits. -/
def singleOfBits (n : Nat) : Float := (Float32.ofBits (UInt32.ofNat n)).toFloat

/-- The float that has these bits. -/
def doubleOfBits (n : Nat) : Float := Float.ofBits (UInt64.ofNat n)

/-- What a first byte announces. -/
inductive Lead where
  /-- A datum that is complete. -/
  | datum (d : Datum)
  /-- An unsigned number of so many bytes, of which the reading is given. -/
  | number (width : Nat) (reading : Nat → Datum)
  /-- A string of so many bytes. -/
  | string (length : Nat)
  /-- A string whose length has so many bytes. -/
  | longString (width : Nat)
  | array (length : Nat)
  | longArray (width : Nat)
  | map (length : Nat)
  | longMap (width : Nat)
  /-- An extension of so many bytes. -/
  | extension (length : Nat)
  /-- An extension whose length has so many bytes. -/
  | longExtension (width : Nat)
  /-- No form starts like this. -/
  | unused

/-- A whole number, read as signed with `bits` bits. -/
def signedDatum (bits n : Nat) : Datum := .int64 (Binary.toSigned bits n)

/-- What a first byte announces. Unsigned numbers of 64 bits are read as signed ones. -/
def lead (b : UInt8) : Lead :=
  let n := b.toNat
  if n < 0x80 then .datum (.int64 n)
  else if n < 0x90 then .map (n - 0x80)
  else if n < 0xA0 then .array (n - 0x90)
  else if n < 0xC0 then .string (n - 0xA0)
  else if 0xE0 ≤ n then .datum (signedDatum 8 n)
  else
    match n with
    | 0xC0 => .datum .null
    | 0xC2 => .datum (.bool false)
    | 0xC3 => .datum (.bool true)
    | 0xC4 => .longString 1
    | 0xC5 => .longString 2
    | 0xC6 => .longString 4
    | 0xC7 => .longExtension 1
    | 0xC8 => .longExtension 2
    | 0xC9 => .longExtension 4
    | 0xCA => .number 4 fun n => .float64 (singleOfBits n)
    | 0xCB => .number 8 fun n => .float64 (doubleOfBits n)
    | 0xCC => .number 1 fun n => .int64 n
    | 0xCD => .number 2 fun n => .int64 n
    | 0xCE => .number 4 fun n => .int64 n
    | 0xCF => .number 8 (signedDatum 64)
    | 0xD0 => .number 1 (signedDatum 8)
    | 0xD1 => .number 2 (signedDatum 16)
    | 0xD2 => .number 4 (signedDatum 32)
    | 0xD3 => .number 8 (signedDatum 64)
    | 0xD4 => .extension 1
    | 0xD5 => .extension 2
    | 0xD6 => .extension 4
    | 0xD7 => .extension 8
    | 0xD8 => .extension 16
    | 0xD9 => .longString 1
    | 0xDA => .longString 2
    | 0xDB => .longString 4
    | 0xDC => .longArray 2
    | 0xDD => .longArray 4
    | 0xDE => .longMap 2
    | 0xDF => .longMap 4
    | _ => .unused

/-- How many arrays and maps may be open at once. -/
def nestingLimit : Nat := 1023

/-- A float as a byte, if it is the float of one. Minus zero is not. -/
def byteOfFloat? (x : Float) : Option UInt8 :=
  let b := x.toUInt8
  if b.toFloat.toBits = x.toBits then some b else none

/-- A datum as a byte: a whole number that fits, also as a float, or nothing for zero. -/
def byteOf? : Datum → Option UInt8
  | .null => some 0
  | .int64 n => if 0 ≤ n ∧ n < 256 then some (UInt8.ofNat n.toNat) else none
  | .float64 x => byteOfFloat? x
  | _ => none

/-- A number that is a byte, and the bytes after it. -/
def byte? : Text → Option (UInt8 × Text)
  | [] => none
  | b :: rest =>
    match lead b with
    | .datum d => (byteOf? d).map fun x => (x, rest)
    | .number width reading =>
      (Binary.number? width rest).bind fun (n, r) => (byteOf? (reading n)).map fun x => (x, r)
    | _ => none

/-- `n` numbers that are bytes, and the bytes after them. -/
def byteRun? : Nat → Text → Option (Text × Text)
  | 0, t => some ([], t)
  | n + 1, t =>
    match byte? t with
    | none => none
    | some (b, r) => (byteRun? n r).map fun (bs, r) => (b :: bs, r)

/-- The key of a map: a string, an array with the bytes of one, or nothing for the empty one. -/
def key? : Text → Option (Text × Text)
  | [] => none
  | b :: rest =>
    match lead b with
    | .string n => Binary.take? n rest
    | .longString width => (Binary.number? width rest).bind fun (n, r) => Binary.take? n r
    | .array n => byteRun? n rest
    | .longArray width => (Binary.number? width rest).bind fun (n, r) => byteRun? n r
    | .datum .null => some ([], rest)
    | _ => none

/-- An extension of `n` bytes: a byte for its type, and its content. The type 255 is a point in time
    and has one of three lengths. -/
def extension? (n : Nat) : Text → Option (Datum × Text)
  | [] => none
  | kind :: rest =>
    match Binary.take? n rest with
    | none => none
    | some (_, r) =>
      if kind = 0xFF then if n = 4 ∨ n = 8 ∨ n = 12 then some (.time, r) else none
      else some (.extension, r)

mutual

/-- A datum and the bytes after it, inside `depth` arrays and maps. The fuel bounds the work; twice
    the number of bytes is enough. -/
def value : Nat → Nat → Text → Option (Datum × Text)
  | 0, _, _ => none
  | _ + 1, _, [] => none
  | fuel + 1, depth, b :: rest =>
    match lead b with
    | .datum d => some (d, rest)
    | .number width reading => (Binary.number? width rest).map fun (n, r) => (reading n, r)
    | .string n => (Binary.take? n rest).map fun (s, r) => (.string s, r)
    | .longString width =>
      match Binary.number? width rest with
      | none => none
      | some (n, r) => (Binary.take? n r).map fun (s, r) => (.string s, r)
    | .array n =>
      if nestingLimit ≤ depth then none
      else (values fuel (depth + 1) n rest).map fun (ds, r) => (.array ds, r)
    | .longArray width =>
      match Binary.number? width rest with
      | none => none
      | some (n, r) =>
        if nestingLimit ≤ depth then none
        else (values fuel (depth + 1) n r).map fun (ds, r) => (.array ds, r)
    | .map n =>
      if nestingLimit ≤ depth then none
      else (entries fuel (depth + 1) n rest).map fun (es, r) => (.map es, r)
    | .longMap width =>
      match Binary.number? width rest with
      | none => none
      | some (n, r) =>
        if nestingLimit ≤ depth then none
        else (entries fuel (depth + 1) n r).map fun (es, r) => (.map es, r)
    | .extension n => extension? n rest
    | .longExtension width => (Binary.number? width rest).bind fun (n, r) => extension? n r
    | .unused => none

/-- `n` data and the bytes after them. -/
def values : Nat → Nat → Nat → Text → Option (List Datum × Text)
  | 0, _, _, _ => none
  | _ + 1, _, 0, t => some ([], t)
  | fuel + 1, depth, n + 1, t =>
    match value fuel depth t with
    | none => none
    | some (d, r) => (values fuel depth n r).map fun (ds, r) => (d :: ds, r)

/-- `n` entries of a map and the bytes after them. -/
def entries : Nat → Nat → Nat → Text → Option (List (Text × Datum) × Text)
  | 0, _, _, _ => none
  | _ + 1, _, 0, t => some ([], t)
  | fuel + 1, depth, n + 1, t =>
    match key? t with
    | none => none
    | some (key, r) =>
      match value fuel depth r with
      | none => none
      | some (d, r) => (entries fuel depth n r).map fun (es, r) => (Datum.withEntry key d es, r)

end

/-- The first datum of some bytes; what follows it does not matter. -/
def read (t : Text) : Option Datum := (value (2 * t.length + 2) 0 t).map Prod.fst

end SmallLisp.MessagePack
