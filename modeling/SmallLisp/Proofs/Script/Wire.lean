import Mathlib
import SmallLisp.Proofs.Interchange.Binary
import SmallLisp.Script.Wire

/-!
# Scripts as bytes, read back

A script is written after the bytes that are there already. What is written does not depend on them
(`Script.appendTo_eq`), so that it makes sense to speak of the bytes of a script (`Script.written`).

`Wire.Reads` says of a reader that it takes certain bytes from the front of any bytes and what it
makes of them. Each form that is written is read back by the reader for it: headers, strings, whole
numbers of either sign, floats, constants, instructions, and in the end the entries of a script.

`decode_appendTo`: a script whose constants can be written is read back from its bytes, whatever
follows them, with the same code and the same constants but for the locations of atoms. A constant
that cannot be written is the only reason for which a script is not.
-/

namespace SmallLisp

open MessagePack (writeString writeBool writeFloat writeInt writeNat)

/-! ## 1. The bytes of a script -/

namespace Script

/-- The bytes of constants, by themselves. -/
def writeConstants : List Value → Except EvalError Text
  | [] => .ok []
  | v :: vs =>
    match writeConstant v with
    | .error e => .error e
    | .ok t =>
      match writeConstants vs with
      | .error e => .error e
      | .ok more => .ok (MessagePack.arrayHeader 2 ++ t ++ more)

/-- The entries that the hash covers. -/
def covered (z : Script) : Except EvalError Text :=
  match writeConstants z.constants.toList with
  | .error e => .error e
  | .ok constants =>
    .ok (writeString "constants" ++ MessagePack.arrayHeader z.constants.size ++ constants
      ++ writeString "code" ++ MessagePack.arrayHeader z.code.size
      ++ z.code.toList.flatMap writeInstruction)

/-- The bytes of a script, by themselves. -/
def written (z : Script) : Except EvalError Text :=
  match z.covered with
  | .error e => .error e
  | .ok body =>
    .ok (MessagePack.mapHeader 3 ++ body ++ writeString "sum"
      ++ writeNat (Blake2b.sum body).toNat)

theorem appendConstants_eq (out : Text) (vs : List Value) :
    appendConstants out vs = (writeConstants vs).map (out ++ ·) := by
  induction vs generalizing out with
  | nil => exact congrArg Except.ok (List.append_nil out).symm
  | cons v vs ih =>
    rw [appendConstants, writeConstants]
    cases writeConstant v with
    | error e => rfl
    | ok t =>
      dsimp only
      rw [ih]
      cases writeConstants vs with
      | error e => rfl
      | ok more => simp [Except.map]

theorem appendCode_eq (out : Text) (code : List Instruction) :
    appendCode out code = out ++ code.flatMap writeInstruction := by
  rw [appendCode, List.foldl_append_eq_append, List.flatMap_def]

/-- **What stands before a script makes no difference to its bytes.** The hash is that of what comes
    behind the header, wherever that starts. -/
theorem appendTo_eq (before : Text) (z : Script) :
    z.appendTo before =
      match z.written with
      | .ok bytes => (before ++ bytes, none)
      | .error e => (before, some e) := by
  unfold appendTo written covered
  dsimp only
  rw [appendConstants_eq]
  cases writeConstants z.constants.toList with
  | error e => rfl
  | ok constants =>
    have hsince (body : Text) : (before ++ MessagePack.mapHeader 3 ++ body).drop
        (before ++ MessagePack.mapHeader 3).length = body := List.drop_left
    simp only [Except.map, appendCode_eq, List.append_assoc] at hsince ⊢
    rw [hsince]

end Script

namespace Wire

/-- The reader takes these bytes from the front of any bytes, and gives this. -/
def Reads {α : Type} (read : Parts α) (bytes : Text) (a : α) : Prop :=
  ∀ rest, read (bytes ++ rest) = .ok (a, rest)

namespace Reads

variable {α β : Type} {read : Parts α} {bytes : Text} {a : α}

theorem map (h : Reads read bytes a) (f : α → β) : Reads (read.map f) bytes (f a) := by
  intro rest
  rw [Parts.map, h rest]

/-- A reader goes on like another one after a first byte. -/
theorem lead {first : Parts α} {b : UInt8} (h : Reads read bytes a)
    (hb : ∀ t, first (b :: t) = read t) : Reads first (b :: bytes) a :=
  fun rest => (hb (bytes ++ rest)).trans (h rest)

theorem many_cons {n : Nat} {more : Text} {as : List α} (h : Reads read bytes a)
    (hmore : Reads (many read n) more as) :
    Reads (many read (n + 1)) (bytes ++ more) (a :: as) := by
  intro rest
  rw [List.append_assoc, many, h]
  dsimp only
  rw [hmore]

end Reads

/-! ## 2. Headers and strings -/

theorem reads_number {width n : Nat} (h : n < 256 ^ width) :
    Reads (number width) (Binary.bigEndian width n) n := by
  intro rest
  rw [number, Binary.number?_bigEndian h]

theorem reads_bytes (s : Text) : Reads (bytes s.length) s s := by
  intro rest
  rw [bytes, Binary.take?_append rfl]

theorem reads_counted {width : Nat} {s : Text} (h : s.length < 256 ^ width) :
    Reads (counted width) (Binary.bigEndian width s.length ++ s) s := by
  intro rest
  rw [counted, List.append_assoc, reads_number h]
  exact reads_bytes s rest

/-- A lead byte with a length in it lies between the first of its kind and the first of the next. -/
theorem lead_between {low high n : Nat} (h : low + n < high) (hhigh : high < UInt8.size) :
    UInt8.ofNat low ≤ UInt8.ofNat (low + n) ∧ UInt8.ofNat (low + n) < UInt8.ofNat high := by
  rw [UInt8.le_iff_toNat_le, UInt8.lt_iff_toNat_lt, UInt8.toNat_ofNat_of_lt' (by omega),
    UInt8.toNat_ofNat_of_lt' (by omega), UInt8.toNat_ofNat_of_lt' hhigh]
  exact ⟨Nat.le_add_right low n, h⟩

theorem reads_arrayHeader {n : Nat} (h : n < 0x100000000) :
    Reads arrayHeader (MessagePack.arrayHeader n) n := by
  unfold MessagePack.arrayHeader
  split
  · intro rest
    rename_i hn
    have hlead : (UInt8.ofNat (0x90 + n)).toNat = 0x90 + n :=
      UInt8.toNat_ofNat_of_lt' (show 0x90 + n < 256 by omega)
    rw [List.singleton_append, arrayHeader, if_pos, hlead, Nat.add_sub_cancel_left]
    exact lead_between (show 0x90 + n < 0xA0 by omega) (by decide)
  · split
    · exact (reads_number (by omega)).lead fun _ => rfl
    · exact (reads_number (by omega)).lead fun _ => rfl

theorem reads_string {s : Text} (h : s.length < 0x100000000) : Reads string (writeString s) s := by
  unfold writeString MessagePack.stringHeader
  split
  · intro rest
    rename_i hn
    have hlead : (UInt8.ofNat (0xA0 + s.length)).toNat = 0xA0 + s.length :=
      UInt8.toNat_ofNat_of_lt' (show 0xA0 + s.length < 256 by omega)
    rw [List.append_assoc, List.singleton_append, string, if_pos, hlead, Nat.add_sub_cancel_left]
    · exact reads_bytes s rest
    · exact lead_between (show 0xA0 + s.length < 0xC0 by omega) (by decide)
  · split
    · exact (reads_counted (by omega)).lead fun _ => rfl
    · split
      · exact (reads_counted (by omega)).lead fun _ => rfl
      · exact (reads_counted (by omega)).lead fun _ => rfl

theorem Reads.array {α : Type} {read : Parts α} {n : Nat} {bytes : Text} {as : List α}
    (hn : n < 0x100000000) (h : Reads (many read n) bytes as) :
    Reads (Wire.array read) (MessagePack.arrayHeader n ++ bytes) as := by
  intro rest
  rw [Wire.array, List.append_assoc, reads_arrayHeader hn]
  exact h rest

/-! ## 3. Numbers -/

/-- The lead bytes of unsigned numbers, with the number of bytes that follow. -/
def unsignedLeads : List (UInt8 × Nat) := [(0xCC, 1), (0xCD, 2), (0xCE, 4), (0xCF, 8)]

/-- The lead bytes of signed numbers, with the number of bytes that follow. -/
def signedLeads : List (UInt8 × Nat) := [(0xD0, 1), (0xD1, 2), (0xD2, 4), (0xD3, 8)]

theorem integer_unsigned {b : UInt8} {width : Nat} (hb : (b, width) ∈ unsignedLeads) (t : Text) :
    integer (b :: t) = (number width).map Int.ofNat t := by
  simp only [unsignedLeads, List.mem_cons, Prod.mk.injEq, List.not_mem_nil, or_false] at hb
  unfold Parts.map
  cases h : number width t with
  | ok r =>
    rcases hb with ⟨rfl, rfl⟩ | ⟨rfl, rfl⟩ | ⟨rfl, rfl⟩ | ⟨rfl, rfl⟩ <;> simp [integer, h]
  | error e =>
    rcases hb with ⟨rfl, rfl⟩ | ⟨rfl, rfl⟩ | ⟨rfl, rfl⟩ | ⟨rfl, rfl⟩ <;> simp [integer, h]

theorem integer_signed {b : UInt8} {width : Nat} (hb : (b, width) ∈ signedLeads) (t : Text) :
    integer (b :: t) = (number width).map (Binary.toSigned (8 * width)) t := by
  simp only [signedLeads, List.mem_cons, Prod.mk.injEq, List.not_mem_nil, or_false] at hb
  unfold Parts.map
  cases h : number width t with
  | ok r =>
    rcases hb with ⟨rfl, rfl⟩ | ⟨rfl, rfl⟩ | ⟨rfl, rfl⟩ | ⟨rfl, rfl⟩ <;> simp [integer, h]
  | error e =>
    rcases hb with ⟨rfl, rfl⟩ | ⟨rfl, rfl⟩ | ⟨rfl, rfl⟩ | ⟨rfl, rfl⟩ <;> simp [integer, h]

theorem reads_unsigned {b : UInt8} {width n : Nat} (hb : (b, width) ∈ unsignedLeads)
    (h : n < 256 ^ width) : Reads integer (b :: Binary.bigEndian width n) (n : Int) :=
  ((reads_number h).map Int.ofNat).lead (integer_unsigned hb)

theorem reads_signed {b : UInt8} {width : Nat} {n : Int} (hb : (b, width) ∈ signedLeads)
    (hlow : -((2 ^ (8 * width - 1) : Nat) : Int) ≤ n)
    (hhigh : n < ((2 ^ (8 * width - 1) : Nat) : Int)) :
    Reads integer (b :: Binary.bigEndian width (Binary.ofSigned (8 * width) n)) n := by
  have hwidth : 8 * width - 1 + 1 = 8 * width := by
    simp only [signedLeads, List.mem_cons, Prod.mk.injEq, List.not_mem_nil, or_false] at hb
    omega
  have hlt := Binary.ofSigned_lt (8 * width) n
  have hback := Binary.toSigned_ofSigned hlow hhigh
  rw [Nat.pow_mul] at hlt
  rw [hwidth] at hback
  have hread := ((reads_number hlt).map (Binary.toSigned (8 * width))).lead (integer_signed hb)
  rw [hback] at hread
  exact hread

theorem reads_signed_of_nonneg {b : UInt8} {width : Nat} {n : Int} (hb : (b, width) ∈ signedLeads)
    (hpos : 0 ≤ n) (hhigh : n < ((2 ^ (8 * width - 1) : Nat) : Int)) :
    Reads integer (b :: Binary.bigEndian width n.toNat) n := by
  have hle : 2 ^ (8 * width - 1) ≤ 2 ^ (8 * width) := Nat.pow_le_pow_right (by decide) (by omega)
  have hcode : Binary.ofSigned (8 * width) n = n.toNat :=
    Binary.ofSigned_of_nonneg hpos (by omega)
  rw [← hcode]
  exact reads_signed hb (by omega) hhigh

theorem reads_small {n : Nat} (h : n < 128) : Reads integer [UInt8.ofNat n] (n : Int) := by
  intro rest
  have hbyte : (UInt8.ofNat n).toNat = n := UInt8.toNat_ofNat_of_lt' (show n < 256 by omega)
  have hlt : UInt8.ofNat n < 0x80 := UInt8.lt_iff_toNat_lt.mpr (by rw [hbyte]; exact h)
  rw [List.singleton_append, integer]
  simp only [if_pos hlt, hbyte]

theorem reads_small_neg {n : Int} (hlow : -32 ≤ n) (hneg : n < 0) :
    Reads integer [UInt8.ofNat (Binary.ofSigned 8 n)] n := by
  intro rest
  have hcode := Binary.ofSigned_of_neg hneg (show -((2 ^ 8 : Nat) : Int) ≤ n by omega)
  have hbyte : (UInt8.ofNat (Binary.ofSigned 8 n)).toNat = Binary.ofSigned 8 n :=
    UInt8.toNat_ofNat_of_lt' (Binary.ofSigned_lt 8 n)
  have hback : Binary.toSigned 8 (Binary.ofSigned 8 n) = n :=
    Binary.toSigned_ofSigned (show -((2 ^ 7 : Nat) : Int) ≤ n by omega) (by omega)
  have hge : 0xE0 ≤ UInt8.ofNat (Binary.ofSigned 8 n) := by
    rw [UInt8.le_iff_toNat_le, hbyte]
    show 0xE0 ≤ Binary.ofSigned 8 n
    omega
  have hnlt : ¬ UInt8.ofNat (Binary.ofSigned 8 n) < 0x80 := by
    rw [UInt8.lt_iff_toNat_lt, hbyte]
    show ¬ Binary.ofSigned 8 n < 0x80
    omega
  rw [List.singleton_append, integer]
  simp only [if_neg hnlt, if_pos hge, hbyte, hback]

theorem reads_writeNat {n : Nat} (h : n < 0x10000000000000000) :
    Reads integer (writeNat n) (n : Int) := by
  unfold writeNat
  split
  · exact reads_small (by omega)
  · split
    · exact reads_unsigned (by decide) (by omega)
    · split
      · exact reads_unsigned (by decide) (by omega)
      · split
        · exact reads_unsigned (by decide) (by omega)
        · exact reads_unsigned (by decide) (by omega)

theorem reads_writeInt {n : Int} (hlow : -0x8000000000000000 ≤ n) (hhigh : n < 0x8000000000000000) :
    Reads integer (writeInt n) n := by
  unfold writeInt
  split
  · rename_i hpos
    split
    · have hsmall := reads_small (show n.toNat < 128 by omega)
      rw [Int.toNat_of_nonneg hpos] at hsmall
      exact hsmall
    · split
      · exact reads_signed_of_nonneg (by decide) hpos (by omega)
      · split
        · exact reads_signed_of_nonneg (by decide) hpos (by omega)
        · exact reads_signed_of_nonneg (by decide) hpos (by omega)
  · split
    · exact reads_small_neg (by omega) (by omega)
    · split
      · exact reads_signed (by decide) (by omega) (by omega)
      · split
        · exact reads_signed (by decide) (by omega) (by omega)
        · split
          · exact reads_signed (by decide) (by omega) (by omega)
          · exact reads_signed (by decide) (by omega) (by omega)

theorem reads_integerIn {low high n : Int} {bytes : Text} (h : Reads integer bytes n)
    (hlow : low ≤ n) (hhigh : n < high) : Reads (integerIn low high) bytes n := by
  intro rest
  rw [integerIn, h rest]
  exact if_pos ⟨hlow, hhigh⟩

theorem reads_float (x : Float) : Reads float (writeFloat x) x := by
  intro rest
  have htake : Binary.take? 9 (writeFloat x ++ rest) = some (writeFloat x, rest) := by
    refine Binary.take?_append ?_ rest
    rw [writeFloat, List.length_cons, Binary.length_bigEndian]
  have hbits : Binary.ofBigEndian (Binary.bigEndian 8 x.toBits.toNat) = x.toBits.toNat :=
    Binary.ofBigEndian_bigEndian x.toBits.toNat_lt
  unfold float
  split
  · rename_i heq
    cases heq
  · rw [htake, writeFloat]
    simp only [if_true, hbits, MessagePack.doubleOfBits]
    rw [UInt64.ofNat_toNat, Float.ofBits_toBits]

theorem reads_bool (b : Bool) : Reads bool (writeBool b) b := by
  intro rest
  cases b <;> rfl

end Wire

/-! ## 4. Constants and instructions -/

namespace Value

/-- The value can be written: it is a literal or an atom. -/
def isPlain : Value → Bool
  | number _ | string _ | bool _ | atom _ _ => true
  | _ => false

/-- The text of a string or an atom. -/
def text : Value → Text
  | string s => s
  | atom name _ => name
  | _ => []

/-- The value without the place where it was read. -/
def unlocated : Value → Value
  | atom name _ => atom name Loc.unknown
  | v => v

end Value

namespace Wire

theorem reads_tagged {tag bytes : Text} {v : Value} (htag : tag.length < 0x100000000)
    (h : Reads (content tag) bytes v) :
    Reads constant (MessagePack.arrayHeader 2 ++ (writeString tag ++ bytes)) v := by
  intro rest
  rw [constant, List.append_assoc, reads_arrayHeader (by decide)]
  dsimp only
  rw [if_pos rfl, List.append_assoc, reads_string htag]
  exact h rest

theorem reads_constant {v : Value} {t : Text} (h : Script.writeConstant v = .ok t)
    (hv : v.text.length < 0x100000000) :
    Reads constant (MessagePack.arrayHeader 2 ++ t) v.unlocated := by
  cases v with
  | number x =>
    cases h
    exact reads_tagged (by decide) ((reads_float x).map Value.number)
  | string s =>
    cases h
    refine reads_tagged (by decide) ?_
    rw [content, if_neg (by decide), if_pos rfl]
    exact (reads_string hv).map Value.string
  | bool b =>
    cases h
    refine reads_tagged (by decide) ?_
    rw [content, if_neg (by decide), if_neg (by decide), if_pos rfl]
    exact (reads_bool b).map Value.bool
  | atom name loc =>
    cases h
    refine reads_tagged (by decide) ?_
    rw [content, if_neg (by decide), if_neg (by decide), if_neg (by decide), if_pos rfl]
    exact (reads_string hv).map (Value.atom · Loc.unknown)
  | _ => cases h

theorem reads_constants {vs : List Value} {t : Text} (h : Script.writeConstants vs = .ok t)
    (hvs : ∀ v ∈ vs, v.text.length < 0x100000000) :
    Reads (many constant vs.length) t (vs.map Value.unlocated) := by
  induction vs generalizing t with
  | nil =>
    cases h
    exact fun _ => rfl
  | cons v vs ih =>
    unfold Script.writeConstants at h
    split at h
    · cases h
    · rename_i bytes hbytes
      split at h
      · cases h
      · rename_i more hmore
        cases h
        have hv := reads_constant hbytes (hvs v List.mem_cons_self)
        exact hv.many_cons (ih hmore fun w hw => hvs w (List.mem_cons_of_mem v hw))

theorem reads_instruction {i : Instruction} (hlow : -0x8000000000000000 ≤ i.arg)
    (hhigh : i.arg < 0x8000000000000000) : Reads instruction (Script.writeInstruction i) i := by
  intro rest
  have hop : i.op.toNat < 256 := i.op.toNat_lt
  have hopRead := reads_integerIn (reads_writeNat (show i.op.toNat < 0x10000000000000000 by omega))
    (Int.natCast_nonneg _) (show (i.op.toNat : Int) < 0x100 by omega)
  have hargRead := reads_integerIn (reads_writeInt hlow hhigh) hlow hhigh
  rw [instruction, Script.writeInstruction, List.append_assoc, List.append_assoc,
    reads_arrayHeader (by decide)]
  dsimp only
  rw [if_pos rfl, hopRead]
  dsimp only
  rw [hargRead.map, Int.toNat_natCast, UInt8.ofNat_toNat]

theorem reads_code {code : List Instruction}
    (h : ∀ i ∈ code, -0x8000000000000000 ≤ i.arg ∧ i.arg < 0x8000000000000000) :
    Reads (many instruction code.length) (code.flatMap Script.writeInstruction) code := by
  induction code with
  | nil => exact fun _ => rfl
  | cons i code ih =>
    have hi := h i List.mem_cons_self
    rw [List.flatMap_cons]
    exact (reads_instruction hi.1 hi.2).many_cons (ih fun j hj => h j (List.mem_cons_of_mem i hj))

/-! ## 5. Entries -/

theorem writeString_append_ne {s rest t : Text} {b : UInt8} (hlow : 0xC0 ≤ b.toNat)
    (hhigh : b.toNat < 0xD9) : writeString s ++ rest ≠ b :: t := by
  intro heq
  unfold writeString MessagePack.stringHeader at heq
  split at heq
  · rename_i hn
    have hlead : (UInt8.ofNat (0xA0 + s.length)).toNat = 0xA0 + s.length :=
      UInt8.toNat_ofNat_of_lt' (show 0xA0 + s.length < 256 by omega)
    rw [← (List.cons.inj heq).1, hlead] at hlow
    omega
  · split at heq
    · rw [← (List.cons.inj heq).1] at hhigh
      exact absurd hhigh (by decide)
    · split at heq
      · rw [← (List.cons.inj heq).1] at hhigh
        exact absurd hhigh (by decide)
      · rw [← (List.cons.inj heq).1] at hhigh
        exact absurd hhigh (by decide)

theorem reads_key {s : Text} (h : s.length < 0x100000000) : Reads key (writeString s) s := by
  intro rest
  unfold key
  split
  · rename_i heq
    exact absurd heq (writeString_append_ne (by decide) (by decide))
  · rename_i heq
    exact absurd heq (writeString_append_ne (by decide) (by decide))
  · rename_i heq
    exact absurd heq (writeString_append_ne (by decide) (by decide))
  · exact reads_string h rest

theorem entries_succ {start name content rest : Text} {n : Nat} {d d' : Draft}
    (hname : name.length < 0x100000000)
    (h : Reads (entry name (fun _ => start.take
      (start.length - (writeString name ++ (content ++ rest)).length)) d) content d') :
    entries start (n + 1) d (writeString name ++ (content ++ rest)) = entries start n d' rest := by
  rw [entries, reads_key hname]
  dsimp only
  rw [h]

theorem entry_constants (covered : Unit → Text) (d : Draft) : entry "constants" covered d
    = (array constant).map fun vs => { d with script.constants := vs.toArray } := by
  rw [entry, if_pos rfl]

theorem entry_code (covered : Unit → Text) (d : Draft) : entry "code" covered d
    = (array instruction).map fun is => { d with script.code := is.toArray } := by
  rw [entry, if_neg (by decide), if_pos rfl]

theorem entry_sum (covered : Unit → Text) (d : Draft) : entry "sum" covered d
    = (checksum (covered ())).map fun _ => { d with checked := true } := by
  rw [entry, if_neg (by decide), if_neg (by decide), if_pos rfl]

theorem reads_checksum (covered : Text) :
    Reads (checksum covered) (writeNat (Blake2b.sum covered).toNat) () := by
  intro rest
  have hlt : (Blake2b.sum covered).toNat < 0x10000000000000000 := (Blake2b.sum covered).toNat_lt
  have hread := reads_integerIn (reads_writeNat hlt) (Int.natCast_nonneg _)
    (show ((Blake2b.sum covered).toNat : Int) < 0x10000000000000000 by omega)
  rw [checksum, hread]
  exact if_pos rfl

end Wire

/-! ## 6. Scripts -/

namespace Script

/-- The script without the places where its atoms were read. -/
def unlocated (z : Script) : Script := { z with constants := z.constants.map Value.unlocated }

/-- The lengths and arguments of a script have room in the format. -/
structure Fits (z : Script) : Prop where
  constants : z.constants.size < 0x100000000
  code : z.code.size < 0x100000000
  texts : ∀ v ∈ z.constants.toList, v.text.length < 0x100000000
  args : ∀ i ∈ z.code.toList, -0x8000000000000000 ≤ i.arg ∧ i.arg < 0x8000000000000000

theorem writeConstant_of_isPlain {v : Value} (h : v.isPlain = true) :
    ∃ t, writeConstant v = .ok t := by
  cases v with
  | number x => exact ⟨_, rfl⟩
  | string s => exact ⟨_, rfl⟩
  | bool b => exact ⟨_, rfl⟩
  | atom name loc => exact ⟨_, rfl⟩
  | _ => cases h

theorem writeConstant_of_not_isPlain {v : Value} (h : v.isPlain = false) :
    writeConstant v = .error ⟨Loc.unknown, .notSerializable ("constant " ++ v.describe)⟩ := by
  cases v with
  | number x => cases h
  | string s => cases h
  | bool b => cases h
  | atom name loc => cases h
  | _ => rfl

/-- **Constants can be written exactly if each of them can**; otherwise the first that cannot be
    written is complained of. -/
theorem writeConstants_eq (vs : List Value) :
    ((∀ v ∈ vs, v.isPlain = true) ∧ ∃ t, writeConstants vs = .ok t) ∨
      ∃ v ∈ vs, v.isPlain = false ∧ writeConstants vs
        = .error ⟨Loc.unknown, .notSerializable ("constant " ++ v.describe)⟩ := by
  induction vs with
  | nil => exact .inl ⟨fun v hv => absurd hv List.not_mem_nil, [], rfl⟩
  | cons v vs ih =>
    cases hv : v.isPlain with
    | false =>
      refine .inr ⟨v, List.mem_cons_self, hv, ?_⟩
      rw [writeConstants, writeConstant_of_not_isPlain hv]
    | true =>
      obtain ⟨t, ht⟩ := writeConstant_of_isPlain hv
      rcases ih with ⟨hvs, more, hmore⟩ | ⟨w, hw, hplain, hmore⟩
      · refine .inl ⟨List.forall_mem_cons.mpr ⟨hv, hvs⟩, MessagePack.arrayHeader 2 ++ t ++ more, ?_⟩
        rw [writeConstants, ht, hmore]
      · refine .inr ⟨w, List.mem_cons_of_mem v hw, hplain, ?_⟩
        rw [writeConstants, ht, hmore]

/-- The entry with the hash closes a draft: the hash is that of the bytes before the entry. -/
theorem entries_sum (body tail : Text) (z : Script) :
    Wire.entries (body ++ (writeString "sum" ++ (writeNat (Blake2b.sum body).toNat ++ tail))) 1
      ⟨z, false⟩ (writeString "sum" ++ (writeNat (Blake2b.sum body).toNat ++ tail))
      = .ok (⟨z, true⟩, tail) := by
  have hcovered (after : Text) :
      (body ++ after).take ((body ++ after).length - after.length) = body := by
    rw [List.length_append, Nat.add_sub_cancel]
    exact List.take_left
  rw [Wire.entries_succ (by decide)]
  · rfl
  · rw [Wire.entry_sum, hcovered]
    exact (Wire.reads_checksum body).map _

/-- The three entries of a script are read back. -/
theorem entries_of_covered {z : Script} (hz : z.Fits) {body : Text} (h : z.covered = .ok body)
    {after tail : Text}
    (hafter : after = writeString "sum" ++ (writeNat (Blake2b.sum body).toNat ++ tail)) :
    Wire.entries (body ++ after) 3 ⟨Script.empty, false⟩ (body ++ after)
      = .ok (⟨z.unlocated, true⟩, tail) := by
  unfold covered at h
  split at h
  · cases h
  · rename_i constants hconstants
    have hvs := (Wire.reads_constants hconstants hz.texts).array hz.constants
    have his := (Wire.reads_code hz.args).array hz.code
    have hbody := Except.ok.inj h
    have hstart : body ++ after = writeString "constants"
        ++ ((MessagePack.arrayHeader z.constants.size ++ constants)
        ++ (writeString "code" ++ ((MessagePack.arrayHeader z.code.size
          ++ z.code.toList.flatMap writeInstruction) ++ after))) := by
      rw [← hbody]
      simp only [List.append_assoc]
    have hscript : Script.mk (z.constants.toList.map Value.unlocated).toArray z.code.toList.toArray
        = z.unlocated := by
      rw [← Array.toList_map]
      rfl
    calc Wire.entries (body ++ after) 3 ⟨Script.empty, false⟩ (body ++ after)
      _ = Wire.entries (body ++ after) 2
            ⟨⟨(z.constants.toList.map Value.unlocated).toArray, #[]⟩, false⟩ _ := by
          refine (congrArg (Wire.entries (body ++ after) 3 _) hstart).trans ?_
          refine Wire.entries_succ (by decide) ?_
          rw [Wire.entry_constants]
          exact hvs.map _
      _ = Wire.entries (body ++ after) 1 ⟨z.unlocated, false⟩ after := by
          refine Wire.entries_succ (by decide) ?_
          rw [Wire.entry_code, ← hscript]
          exact his.map _
      _ = .ok (⟨z.unlocated, true⟩, tail) := by
          rw [hafter]
          exact entries_sum body tail z.unlocated

/-- **A script is read back from its bytes**, and what follows them is left. -/
theorem decode_of_written {z : Script} (hz : z.Fits) {bytes : Text} (h : z.written = .ok bytes)
    (tail : Text) : decode (bytes ++ tail) = .ok (z.unlocated, tail) := by
  unfold written at h
  split at h
  · cases h
  · rename_i body hbody
    cases h
    simp only [List.append_assoc]
    have hmap (t : Text) : Wire.mapHeader (MessagePack.mapHeader 3 ++ t) = .ok (3, t) := rfl
    rw [decode, hmap]
    dsimp only
    rw [entries_of_covered hz hbody rfl]
    rfl

/-- A script is written exactly if its constants are, and fails as they do. -/
theorem written_eq (z : Script) :
    ((∀ v ∈ z.constants.toList, v.isPlain = true) ∧ ∃ bytes, z.written = .ok bytes) ∨
      ∃ v ∈ z.constants.toList, v.isPlain = false ∧ z.written
        = .error ⟨Loc.unknown, .notSerializable ("constant " ++ v.describe)⟩ := by
  rcases writeConstants_eq z.constants.toList with ⟨hplain, t, ht⟩ | ⟨v, hv, hplain, herror⟩
  · refine .inl ⟨hplain, ?_⟩
    rw [written, covered, ht]
    exact ⟨_, rfl⟩
  · refine .inr ⟨v, hv, hplain, ?_⟩
    rw [written, covered, herror]

end Script

/-- **Scripts round-trip.** A script that fits and whose constants are literals and atoms is written
    as the same bytes after whatever stands before them; read back, with whatever follows them, they
    give the code and the constants again, without the locations of atoms. Writing fails exactly if
    some constant is neither a literal nor an atom, and what stood before is then left as it was. -/
theorem decode_appendTo (z : Script) :
    (z.Fits → (∀ v ∈ z.constants.toList, v.isPlain = true) →
      ∃ bytes, z.appendTo [] = (bytes, none) ∧
        (∀ before, z.appendTo before = (before ++ bytes, none)) ∧
        ∀ tail, Script.decode (bytes ++ tail) = .ok (z.unlocated, tail)) ∧
    ∀ before, ((z.appendTo before).2.isSome = true ↔
        ∃ v ∈ z.constants.toList, v.isPlain = false) ∧
      ∀ e, (z.appendTo before).2 = some e → (z.appendTo before).1 = before ∧
        ∃ v ∈ z.constants.toList, v.isPlain = false ∧
          e = ⟨Loc.unknown, .notSerializable ("constant " ++ v.describe)⟩ := by
  rcases z.written_eq with ⟨hplain, bytes, hbytes⟩ | ⟨v, hv, hplain, herror⟩
  · have happend (before : Text) : z.appendTo before = (before ++ bytes, none) := by
      rw [Script.appendTo_eq, hbytes]
    refine ⟨fun hz _ => ⟨bytes, happend [], happend, Script.decode_of_written hz hbytes⟩, ?_⟩
    intro before
    rw [happend]
    refine ⟨iff_of_false Bool.false_ne_true ?_, fun e he => by cases he⟩
    rintro ⟨v, hv, hnot⟩
    rw [hplain v hv] at hnot
    cases hnot
  · have happend (before : Text) : z.appendTo before
        = (before, some ⟨Loc.unknown, .notSerializable ("constant " ++ v.describe)⟩) := by
      rw [Script.appendTo_eq, herror]
    refine ⟨fun _ hall => ?_, fun before => ?_⟩
    · rw [hall v hv] at hplain
      cases hplain
    · rw [happend]
      exact ⟨iff_of_true rfl ⟨v, hv, hplain⟩,
        fun e he => ⟨rfl, v, hv, hplain, (Option.some.inj he).symm⟩⟩

/-- One constant of each kind, a string that needs a long header, and instructions with numbers of
    several sizes, the least one among them. -/
def mixedScript : Script where
  constants := #[.number (-0.5), .string (List.replicate 300 0xFF), .bool true, .atom "f" ⟨3, 7⟩]
  code := #[⟨Opcode.const, 3⟩, ⟨0xFF, -0x8000000000000000⟩, ⟨0x90, -33⟩, ⟨2, 40000⟩]

theorem mixedScript_fits : mixedScript.Fits where
  constants := by decide
  code := by decide
  texts := by decide +kernel
  args := by decide +kernel

theorem decode_appendTo_mixedScript : mixedScript.Fits ∧
    (∀ v ∈ mixedScript.constants.toList, v.isPlain = true) ∧
    ∃ bytes, mixedScript.appendTo [1, 2] = ([1, 2] ++ bytes, none) ∧
      Script.decode (bytes ++ [0xC1]) = .ok (mixedScript.unlocated, [0xC1]) := by
  have hplain : ∀ v ∈ mixedScript.constants.toList, v.isPlain = true := by decide +kernel
  obtain ⟨bytes, -, happend, hdecode⟩ := (decode_appendTo mixedScript).1 mixedScript_fits hplain
  exact ⟨mixedScript_fits, hplain, bytes, happend [1, 2], hdecode [0xC1]⟩

end SmallLisp
