/-!
# Text: byte strings, and how they read as characters

A string of the language, a name and everything printed is a **byte string** (`Text`): data that
comes in from outside may hold any bytes. Source text is read as **characters**. This file fixes
the two readings:

* `encode` writes characters as UTF-8;
* `pieces` cuts a byte string into characters and stray bytes, a byte being stray when no
  well-formed UTF-8 sequence starts there;
* `decode` reads every piece as a character, a stray byte as the replacement character.
-/

namespace SmallLisp

/-- A byte string. -/
abbrev Text := List UInt8

namespace Utf8

/-! ## 1. Writing -/

/-- The UTF-8 sequence of one character. -/
def encodeChar (c : Char) : Text :=
  let n := c.toNat
  if n < 0x80 then [UInt8.ofNat n]
  else if n < 0x800 then [UInt8.ofNat (0xC0 + n / 64), UInt8.ofNat (0x80 + n % 64)]
  else if n < 0x10000 then
    [UInt8.ofNat (0xE0 + n / 4096), UInt8.ofNat (0x80 + n / 64 % 64), UInt8.ofNat (0x80 + n % 64)]
  else
    [UInt8.ofNat (0xF0 + n / 262144), UInt8.ofNat (0x80 + n / 4096 % 64),
      UInt8.ofNat (0x80 + n / 64 % 64), UInt8.ofNat (0x80 + n % 64)]

/-- The UTF-8 sequence of a list of characters. -/
def encode (cs : List Char) : Text := cs.flatMap encodeChar

/-! ## 2. Reading -/

/-- A continuation byte. -/
def isTail (b : UInt8) : Bool := 0x80 ≤ b && b ≤ 0xBF

/-- The payload of a continuation byte. -/
def tailBits (b : UInt8) : Nat := b.toNat - 0x80

/-- The character whose sequence starts with the byte `a` and goes on in `rest`, and how many bytes
    of `rest` belong to it. Overlong forms, surrogates and values past the last code point have no
    character. -/
def charAt? (a : UInt8) (rest : Text) : Option (Char × Nat) :=
  if a < 0x80 then some (Char.ofNat a.toNat, 0)
  else if a < 0xC2 then none
  else if a < 0xE0 then
    match rest with
    | b :: _ =>
      if isTail b then some (Char.ofNat ((a.toNat - 0xC0) * 64 + tailBits b), 1) else none
    | _ => none
  else if a < 0xF0 then
    match rest with
    | b :: c :: _ =>
      if isTail b && isTail c && (a != 0xE0 || 0xA0 ≤ b) && (a != 0xED || b ≤ 0x9F) then
        some (Char.ofNat ((a.toNat - 0xE0) * 4096 + tailBits b * 64 + tailBits c), 2)
      else none
    | _ => none
  else if a < 0xF5 then
    match rest with
    | b :: c :: d :: _ =>
      if isTail b && isTail c && isTail d && (a != 0xF0 || 0x90 ≤ b) && (a != 0xF4 || b ≤ 0x8F) then
        some (Char.ofNat
          ((a.toNat - 0xF0) * 262144 + tailBits b * 4096 + tailBits c * 64 + tailBits d), 3)
      else none
    | _ => none
  else none

/-- What a byte string is cut into: characters, and bytes that belong to none. -/
inductive Piece where
  | char (c : Char)
  | stray (b : UInt8)
deriving DecidableEq, Repr

/-- The bytes a piece stands for. -/
def Piece.bytes : Piece → Text
  | .char c => encodeChar c
  | .stray b => [b]

/-- The replacement character stands for what is not a character. -/
def replacement : Char := Char.ofNat 0xFFFD

/-- A piece read as a character. -/
def Piece.toChar : Piece → Char
  | .char c => c
  | .stray _ => replacement

/-- The pieces of a byte string, the first `skip` bytes of which belong to a character already
    read. -/
def piecesFrom : Nat → Text → List Piece
  | _, [] => []
  | skip + 1, _ :: rest => piecesFrom skip rest
  | 0, a :: rest =>
    match charAt? a rest with
    | some (c, width) => .char c :: piecesFrom width rest
    | none => .stray a :: piecesFrom 0 rest

/-- A byte string cut into characters and stray bytes. -/
def pieces (t : Text) : List Piece := piecesFrom 0 t

/-- The characters of a byte string; each stray byte reads as the replacement character. -/
def decode (t : Text) : List Char := (pieces t).map Piece.toChar

/-- No byte is stray. -/
def isValid (t : Text) : Bool :=
  (pieces t).all fun
    | .char _ => true
    | .stray _ => false

end Utf8

namespace Text

/-! ## 3. Byte strings from strings and numbers -/

/-- The bytes of a string. -/
def ofString (s : String) : Text := Utf8.encode s.toList

instance : Coe String Text := ⟨ofString⟩

/-- The bytes of a character string given as a list. -/
def ofChars (cs : List Char) : Text := Utf8.encode cs

/-- A natural number in decimal. -/
def ofNat (n : Nat) : Text := ofString (toString n)

/-- The string with these bytes, if they are UTF-8. -/
def toString? (t : Text) : Option String :=
  if Utf8.isValid t then some (String.ofList (Utf8.decode t)) else none

/-- The texts one after the other with a separator between neighbours. -/
def join (separator : Text) (parts : List Text) : Text :=
  List.flatten (parts.intersperse separator)

/-- Bytewise order, the order in which names are listed. -/
def le (a b : Text) : Bool := decide (a ≤ b)

/-- Texts in bytewise order. -/
def sort (names : List Text) : List Text := names.mergeSort le

/-- The length in characters, a stray byte counting as one. -/
def charCount (t : Text) : Nat := (Utf8.pieces t).length

/-- The rest of `t` after `start`, if `t` starts with it. -/
def after? (start t : Text) : Option Text :=
  if start.isPrefixOf t then some (t.drop start.length) else none

end Text

end SmallLisp
