import SmallLisp.Interchange.MessagePack
import SmallLisp.Script.Basic
import SmallLisp.Value.Digest
import SmallLisp.Value.Fault

/-!
# Scripts as bytes

A script is written as a MessagePack map of three entries: its constants, its code, and the hash of
the bytes of the first two. Reading takes the entries in any order and skips those it does not know;
a hash covers everything before it, and one that matches has to be there.
-/

namespace SmallLisp

/-! ## 1. Writing -/

namespace Script

/-- A constant: its kind and its content. Only literals and atoms can be written. -/
def writeConstant : Value → Except EvalError Text
  | .number x => .ok (MessagePack.writeString "number" ++ MessagePack.writeFloat x)
  | .string s => .ok (MessagePack.writeString "string" ++ MessagePack.writeString s)
  | .bool b => .ok (MessagePack.writeString "boolean" ++ MessagePack.writeBool b)
  | .atom name _ => .ok (MessagePack.writeString "atom" ++ MessagePack.writeString name)
  | v => .error ⟨Loc.unknown, .notSerializable ("constant " ++ v.describe)⟩

/-- The bytes `out` with constants written after them; the first that cannot be written decides the
    error. -/
def appendConstants (out : Text) : List Value → Except EvalError Text
  | [] => .ok out
  | v :: vs =>
    match writeConstant v with
    | .error e => .error e
    | .ok t => appendConstants (out ++ MessagePack.arrayHeader 2 ++ t) vs

/-- An instruction: its code and its argument. -/
def writeInstruction (i : Instruction) : Text :=
  MessagePack.arrayHeader 2 ++ MessagePack.writeNat i.op.toNat ++ MessagePack.writeInt i.arg

/-- The bytes `out` with instructions written after them. -/
def appendCode (out : Text) (code : List Instruction) : Text :=
  code.foldl (fun out i => out ++ writeInstruction i) out

/-- The bytes `before` with a script written after them; they stay as they are if the script cannot
    be written. The hash covers what has been written since the header of the map. -/
def appendTo (before : Text) (z : Script) : Text × Option EvalError :=
  let out := before ++ MessagePack.mapHeader 3
  let start := out.length
  let out := out ++ MessagePack.writeString "constants" ++ MessagePack.arrayHeader z.constants.size
  match appendConstants out z.constants.toList with
  | .error e => (before, some e)
  | .ok out =>
    let out := out ++ MessagePack.writeString "code" ++ MessagePack.arrayHeader z.code.size
    let out := appendCode out z.code.toList
    let sum := Blake2b.sum (out.drop start)
    (out ++ MessagePack.writeString "sum" ++ MessagePack.writeNat sum.toNat, none)

/-- A script as bytes. -/
def encode (z : Script) : Except EvalError Text :=
  match z.appendTo [] with
  | (bytes, none) => .ok bytes
  | (_, some e) => .error e

end Script

/-! ## 2. Errors of reading -/

/-- Why bytes are not the part that is read. -/
inductive WireError where
  /-- There are too few bytes. -/
  | short
  /-- A part of another type stands there. -/
  | wrongType
  /-- A byte stands there that starts no part. -/
  | badLead
  /-- A number that the target cannot hold. -/
  | outOfRange
deriving DecidableEq, Repr

/-- Why well-formed bytes are not a script. -/
inductive CorruptCause where
  | checksumMismatch
  | missingChecksum
  | constantFields (n : Nat)
  | instructionFields (n : Nat)
  | unknownConstant (tag : Text)
deriving DecidableEq, Repr

/-- What is wrong with a script, in words. -/
def CorruptCause.detail : CorruptCause → Text
  | checksumMismatch => "checksum mismatch"
  | missingChecksum => "missing checksum"
  | constantFields n => s!"constant has {n} fields"
  | instructionFields n => s!"instruction has {n} fields"
  | unknownConstant tag => "unknown constant type " ++ tag

/-- Why bytes cannot be read as a script. -/
inductive WireFault where
  | wire (e : WireError)
  | corrupt (cause : CorruptCause)
deriving DecidableEq, Repr

/-- The kind of a script that is not one. -/
def CorruptCause.kind (_ : CorruptCause) : String := "corrupt script"

/-- The full wording of the error. -/
def CorruptCause.message (c : CorruptCause) : Text :=
  complaint "syntax" Loc.unknown c.kind c.detail

namespace Wire

/-- Reads a part from the front of some bytes. -/
abbrev Parts (α : Type) := Text → Except WireFault (α × Text)

/-- Ends reading. -/
def refuse {α : Type} (e : WireError) : Except WireFault α := .error (.wire e)

/-- The error for a first byte that starts no part of the wanted type. -/
def badLead {α : Type} (b : UInt8) : Except WireFault α :=
  refuse (if b = 0xC1 then .badLead else .wrongType)

/-- A number of `width` bytes. -/
def number (width : Nat) : Parts Nat := fun t =>
  match Binary.number? width t with
  | some r => .ok r
  | none => refuse .short

/-- `n` bytes. -/
def bytes (n : Nat) : Parts Text := fun t =>
  match Binary.take? n t with
  | some r => .ok r
  | none => refuse .short

/-! ## 3. Parts -/

/-- The header of a map. -/
def mapHeader : Parts Nat
  | [] => refuse .short
  | b :: rest =>
    if 0x80 ≤ b ∧ b < 0x90 then .ok (b.toNat - 0x80, rest)
    else if b = 0xDE then number 2 rest
    else if b = 0xDF then number 4 rest
    else badLead b

/-- The header of an array. -/
def arrayHeader : Parts Nat
  | [] => refuse .short
  | b :: rest =>
    if 0x90 ≤ b ∧ b < 0xA0 then .ok (b.toNat - 0x90, rest)
    else if b = 0xDC then number 2 rest
    else if b = 0xDD then number 4 rest
    else badLead b

/-- As many bytes as a number of `width` bytes before them says. -/
def counted (width : Nat) : Parts Text := fun t =>
  match number width t with
  | .error e => .error e
  | .ok (n, rest) => bytes n rest

/-- A string. Everything else is of another type, also a byte that starts no part. -/
def string : Parts Text
  | [] => refuse .short
  | b :: rest =>
    if 0xA0 ≤ b ∧ b < 0xC0 then bytes (b.toNat - 0xA0) rest
    else if b = 0xD9 then counted 1 rest
    else if b = 0xDA then counted 2 rest
    else if b = 0xDB then counted 4 rest
    else refuse .wrongType

/-- The key of an entry: a string, or bytes. -/
def key : Parts Text := fun t =>
  match t with
  | 0xC4 :: rest => counted 1 rest
  | 0xC5 :: rest => counted 2 rest
  | 0xC6 :: rest => counted 4 rest
  | t => string t

/-- A float, of either precision. With too few bytes for one, what they are does not matter. -/
def float : Parts Float := fun t =>
  match t with
  | 0xCA :: rest =>
    match number 4 rest with
    | .ok (n, r) => .ok (MessagePack.singleOfBits n, r)
    | .error e => .error e
  | t =>
    match Binary.take? 9 t with
    | none => refuse .short
    | some (b :: front, rest) =>
      if b = 0xCB then .ok (MessagePack.doubleOfBits (Binary.ofBigEndian front), rest)
      else badLead b
    | some ([], _) => refuse .short

/-- A truth value. -/
def bool : Parts Bool
  | [] => refuse .short
  | b :: rest =>
    if b = 0xC2 then .ok (false, rest) else if b = 0xC3 then .ok (true, rest) else badLead b

/-- A whole number in any form. -/
def integer : Parts Int
  | [] => refuse .short
  | b :: rest =>
    let unsigned (width : Nat) : Except WireFault (Int × Text) :=
      match number width rest with
      | .ok (n, r) => .ok ((n : Int), r)
      | .error e => .error e
    let signed (width : Nat) : Except WireFault (Int × Text) :=
      match number width rest with
      | .ok (n, r) => .ok (Binary.toSigned (8 * width) n, r)
      | .error e => .error e
    if b < 0x80 then .ok ((b.toNat : Int), rest)
    else if 0xE0 ≤ b then .ok (Binary.toSigned 8 b.toNat, rest)
    else if b = 0xCC then unsigned 1
    else if b = 0xCD then unsigned 2
    else if b = 0xCE then unsigned 4
    else if b = 0xCF then unsigned 8
    else if b = 0xD0 then signed 1
    else if b = 0xD1 then signed 2
    else if b = 0xD2 then signed 4
    else if b = 0xD3 then signed 8
    else badLead b

/-- A whole number from `low` up to, but not including, `high`. -/
def integerIn (low high : Int) : Parts Int := fun t =>
  match integer t with
  | .error e => .error e
  | .ok (n, rest) => if low ≤ n ∧ n < high then .ok (n, rest) else refuse .outOfRange

/-! ## 4. Parts that are not looked at -/

/-- The number of bytes a part takes without its elements, and the number of its elements. -/
def extent : Text → Except WireError (Nat × Nat)
  | [] => .error .short
  | b :: rest =>
    let n := b.toNat
    let withLength (width extra : Nat) : Except WireError (Nat × Nat) :=
      match Binary.number? width rest with
      | some (k, _) => .ok (1 + width + extra + k, 0)
      | none => .error .short
    let withCount (width each : Nat) : Except WireError (Nat × Nat) :=
      match Binary.number? width rest with
      | some (k, _) => .ok (1 + width, each * k)
      | none => .error .short
    if n < 0x80 ∨ 0xE0 ≤ n then .ok (1, 0)
    else if n < 0x90 then .ok (1, 2 * (n - 0x80))
    else if n < 0xA0 then .ok (1, n - 0x90)
    else if n < 0xC0 then .ok (1 + (n - 0xA0), 0)
    else
      match n with
      | 0xC0 | 0xC2 | 0xC3 => .ok (1, 0)
      | 0xC4 | 0xD9 => withLength 1 0
      | 0xC5 | 0xDA => withLength 2 0
      | 0xC6 | 0xDB => withLength 4 0
      | 0xC7 => withLength 1 1
      | 0xC8 => withLength 2 1
      | 0xC9 => withLength 4 1
      | 0xCC | 0xD0 => .ok (2, 0)
      | 0xCD | 0xD1 => .ok (3, 0)
      | 0xCA | 0xCE | 0xD2 => .ok (5, 0)
      | 0xCB | 0xCF | 0xD3 => .ok (9, 0)
      | 0xD4 => .ok (3, 0)
      | 0xD5 => .ok (4, 0)
      | 0xD6 => .ok (6, 0)
      | 0xD7 => .ok (10, 0)
      | 0xD8 => .ok (18, 0)
      | 0xDC => withCount 2 1
      | 0xDD => withCount 4 1
      | 0xDE => withCount 2 2
      | 0xDF => withCount 4 2
      | _ => .error .badLead

/-- What follows `n` parts, whatever they are. The elements of a part are parts like those after it,
    so they only add to the number that is left. -/
def skip (n : Nat) (t : Text) : Except WireError Text :=
  match n with
  | 0 => .ok t
  | n + 1 =>
    match extent t with
    | .error e => .error e
    | .ok (size, elements) =>
      if 0 < size ∧ size ≤ t.length then skip (elements + n) (t.drop size) else .error .short
termination_by t.length
decreasing_by simp only [List.length_drop]; omega

/-! ## 5. Constants and instructions -/

/-- A part of `n` parts that are read alike. -/
def many {α : Type} (read : Parts α) : Nat → Parts (List α)
  | 0, t => .ok ([], t)
  | n + 1, t =>
    match read t with
    | .error e => .error e
    | .ok (x, rest) =>
      match many read n rest with
      | .error e => .error e
      | .ok (xs, rest) => .ok (x :: xs, rest)

/-- An array whose elements are read alike. -/
def array {α : Type} (read : Parts α) : Parts (List α) := fun t =>
  match arrayHeader t with
  | .error e => .error e
  | .ok (n, rest) => many read n rest

/-- Reads a part and makes something of it. -/
def Parts.map {α β : Type} (f : α → β) (read : Parts α) : Parts β := fun t =>
  match read t with
  | .error e => .error e
  | .ok (x, rest) => .ok (f x, rest)

/-- The content of a constant of the kind `tag`. -/
def content (tag : Text) : Parts Value :=
  if tag = ("number" : Text) then float.map .number
  else if tag = ("string" : Text) then string.map .string
  else if tag = ("boolean" : Text) then bool.map .bool
  else if tag = ("atom" : Text) then string.map (.atom · Loc.unknown)
  else fun _ => .error (.corrupt (.unknownConstant tag))

/-- A constant. -/
def constant : Parts Value := fun t =>
  match arrayHeader t with
  | .error e => .error e
  | .ok (n, rest) =>
    if n = 2 then
      match string rest with
      | .error e => .error e
      | .ok (tag, rest) => content tag rest
    else .error (.corrupt (.constantFields n))

/-- An instruction. -/
def instruction : Parts Instruction := fun t =>
  match arrayHeader t with
  | .error e => .error e
  | .ok (n, rest) =>
    if n = 2 then
      match integerIn 0 0x100 rest with
      | .error e => .error e
      | .ok (op, rest) =>
        (integerIn (-0x8000000000000000) 0x8000000000000000).map
          (fun arg => ⟨UInt8.ofNat op.toNat, arg⟩) rest
    else .error (.corrupt (.instructionFields n))

/-- The hash of the bytes `covered`. -/
def checksum (covered : Text) : Parts Unit := fun t =>
  match integerIn 0 0x10000000000000000 t with
  | .error e => .error e
  | .ok (n, rest) =>
    if n = ((Blake2b.sum covered).toNat : Int) then .ok ((), rest)
    else .error (.corrupt .checksumMismatch)

/-! ## 6. Scripts -/

/-- A script that is being read, and whether a hash has been seen. -/
structure Draft where
  script : Script
  checked : Bool

/-- Reads the content of the entry `name`. The bytes `covered` are those before the entry. -/
def entry (name : Text) (covered : Unit → Text) (d : Draft) : Parts Draft :=
  if name = ("constants" : Text) then
    (array constant).map fun vs => { d with script.constants := vs.toArray }
  else if name = ("code" : Text) then
    (array instruction).map fun is => { d with script.code := is.toArray }
  else if name = ("sum" : Text) then
    (checksum (covered ())).map fun _ => { d with checked := true }
  else fun t =>
    match skip 1 t with
    | .error e => refuse e
    | .ok rest => .ok (d, rest)

/-- Reads `n` entries of the bytes `start`. A later entry of a name replaces an earlier one. -/
def entries (start : Text) : Nat → Draft → Parts Draft
  | 0, d, t => .ok (d, t)
  | n + 1, d, t =>
    match key t with
    | .error e => .error e
    | .ok (name, rest) =>
      match entry name (fun _ => start.take (start.length - t.length)) d rest with
      | .error e => .error e
      | .ok (d, rest) => entries start n d rest

end Wire

/-- Reads a script from the front of some bytes. -/
def Script.decode (bytes : Text) : Except WireFault (Script × Text) :=
  match Wire.mapHeader bytes with
  | .error e => .error e
  | .ok (n, start) =>
    match Wire.entries start n ⟨Script.empty, false⟩ start with
    | .error e => .error e
    | .ok (d, rest) =>
      if d.checked then .ok (d.script, rest) else .error (.corrupt .missingChecksum)

end SmallLisp
