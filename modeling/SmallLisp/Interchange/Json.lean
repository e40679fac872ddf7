import SmallLisp.Interchange.JsonNumber

/-!
# JSON text

Writing leaves no blanks. Reading takes one value from the front of a text and leaves the rest; it
is lenient where the format has no use for strictness: strings may hold any bytes, numbers may lack
digits. Arrays and maps nest to a limit.
-/

namespace SmallLisp.Json

/-! ## 1. Writing -/

/-- One piece of a string. Control characters and three marks of markup languages are escaped, also
    the two line separators of Unicode; a stray byte is written as the replacement character. -/
def escapePiece : Utf8.Piece → Text
  | .stray _ => "\\uFFFD"
  | .char c =>
    match c.toNat with
    | 0x22 => "\\\""
    | 0x5C => "\\\\"
    | 0x08 => "\\b"
    | 0x09 => "\\t"
    | 0x0A => "\\n"
    | 0x0C => "\\f"
    | 0x0D => "\\r"
    | n =>
      if n < 0x20 || n == 0x3C || n == 0x3E || n == 0x26 || n == 0x2028 || n == 0x2029 then
        "\\u" ++ hexDigits 4 n
      else Utf8.encodeChar c

/-- A string in JSON. -/
def writeString (s : Text) : Text := "\"" ++ (Utf8.pieces s).flatMap escapePiece ++ "\""

/-- A number in JSON, which has none that is not finite. -/
def writeNumber (x : Float) : Text := if x.isFinite then Number.interchange x else "null"

mutual

/-- A datum in JSON. What JSON has no form for is written as `null`. -/
def write : Datum → Text
  | .null | .time | .extension => "null"
  | .bool b => if b then "true" else "false"
  | .float64 x | .float32 x => writeNumber x
  | .int64 n | .int n | .int8 n => toString n
  | .uint64 n => toString n
  | .string s | .bytes s => writeString s
  | .array items => "[" ++ Text.join "," (writeAll items) ++ "]"
  | .map entries => "\x7b" ++ Text.join "," (writeEntries entries) ++ "\x7d"

/-- Data in JSON. -/
def writeAll : List Datum → List Text
  | [] => []
  | d :: ds => write d :: writeAll ds

/-- The entries of a map in JSON. -/
def writeEntries : List (Text × Datum) → List Text
  | [] => []
  | (key, d) :: more => (writeString key ++ ":" ++ write d) :: writeEntries more

end

/-! ## 2. Reading strings -/

/-- The code unit written by four hexadecimal digits; the replacement character if one is none. -/
def codeUnit (a b c d : UInt8) : Nat :=
  match Hex.value? a, Hex.value? b, Hex.value? c, Hex.value? d with
  | some x, some y, some z, some w => ((x * 16 + y) * 16 + z) * 16 + w
  | _, _, _, _ => 0xFFFD

/-- A code unit that is only half a character. -/
def isSurrogate (n : Nat) : Bool := 0xD800 ≤ n && n < 0xE000

/-- The character of a pair of surrogates. -/
def ofSurrogates (high low : Nat) : Char :=
  if high < 0xDC00 && 0xDC00 ≤ low && low < 0xE000 then
    Char.ofNat (0x10000 + (high - 0xD800) * 0x400 + (low - 0xDC00))
  else Utf8.replacement

/-- The character after `\u` and how many bytes it takes. After a surrogate the next six bytes are
    taken too, and give one character with it if they are an escape that completes the pair. -/
def unicodeEscape? : Text → Option (Char × Nat)
  | a :: b :: c :: d :: rest =>
    let unit := codeUnit a b c d
    if isSurrogate unit then
      match rest with
      | e :: f :: a' :: b' :: c' :: d' :: _ =>
        if e = 0x5C ∧ f = 0x75 then some (ofSurrogates unit (codeUnit a' b' c' d'), 10)
        else some (Utf8.replacement, 10)
      | _ => none
    else some (Char.ofNat unit, 4)
  | _ => none

/-- The bytes an escape stands for and how many bytes it takes after the backslash. -/
def escape? : Text → Option (Text × Nat)
  | [] => none
  | e :: rest =>
    if e = 0x22 ∨ e = 0x5C ∨ e = 0x2F ∨ e = 0x27 then some ([e], 1)
    else if e = 0x62 then some ([0x08], 1)
    else if e = 0x66 then some ([0x0C], 1)
    else if e = 0x6E then some ([0x0A], 1)
    else if e = 0x72 then some ([0x0D], 1)
    else if e = 0x74 then some ([0x09], 1)
    else if e = 0x75 then
      (unicodeEscape? rest).map fun (c, width) => (Utf8.encodeChar c, width + 1)
    else none

/-- The string up to the closing quote, and the text after it; the first `skip` bytes belong to an
    escape already read. -/
def stringFrom : Nat → Text → Option (Text × Text)
  | _, [] => none
  | skip + 1, _ :: rest => stringFrom skip rest
  | 0, b :: rest =>
    if b = 0x22 then some ([], rest)
    else if b = 0x5C then
      match escape? rest with
      | none => none
      | some (bytes, width) => (stringFrom width rest).map fun (s, r) => (bytes ++ s, r)
    else (stringFrom 0 rest).map fun (s, r) => (b :: s, r)

/-! ## 3. Reading values -/

/-- White space: the space and every byte below it. -/
def isSpaceByte (b : UInt8) : Bool := b ≤ 0x20

/-- The text without white space in front. -/
def skipSpace (t : Text) : Text := t.dropWhile isSpaceByte

/-- How many arrays and maps may be open at once. -/
def nestingLimit : Nat := 1023

/-- A literal word, of which the first letter has been seen. -/
def literal (word : String) (d : Datum) (t : Text) : Option (Datum × Text) :=
  (Text.after? word t).map fun rest => (d, rest)

/-- The key of a map. Besides strings, the literal words and numbers can be keys. -/
def key? (t : Text) : Option (Text × Text) :=
  match t with
  | [] => none
  | b :: rest =>
    if b = 0x22 then stringFrom 0 rest
    else if b = 0x6E then (Text.after? "null" t).map fun r => ([], r)
    else if b = 0x74 then (Text.after? "true" t).map fun r => ("true", r)
    else if b = 0x66 then (Text.after? "false" t).map fun r => ("false", r)
    else some (t.takeWhile isNumeric, t.dropWhile isNumeric)

/-- The rest of a text after the byte `b`, white space before it apart. -/
def expect (b : UInt8) (t : Text) : Option Text :=
  match skipSpace t with
  | c :: rest => if c = b then some rest else none
  | [] => none

mutual

/-- A value and the text after it, inside `depth` arrays and maps. The fuel bounds the work; twice
    the length of the text is enough. -/
def value : Nat → Nat → Text → Option (Datum × Text)
  | 0, _, _ => none
  | fuel + 1, depth, t =>
    let t := skipSpace t
    match t with
    | [] => none
    | b :: rest =>
      if b = 0x22 then (stringFrom 0 rest).map fun (s, r) => (.string s, r)
      else if b = 0x6E then literal "null" .null t
      else if b = 0x74 then literal "true" (.bool true) t
      else if b = 0x66 then literal "false" (.bool false) t
      else if b = 0x5B then
        if nestingLimit ≤ depth then none
        else
          match expect 0x5D rest with
          | some r => some (.array [], r)
          | none => (elements fuel (depth + 1) rest).map fun (ds, r) => (.array ds, r)
      else if b = 0x7B then
        if nestingLimit ≤ depth then none
        else
          match expect 0x7D rest with
          | some r => some (.map [], r)
          | none => (entries fuel (depth + 1) rest).map fun (es, r) => (.map es, r)
      else (number? (t.takeWhile isNumeric)).map fun d => (d, t.dropWhile isNumeric)

/-- The elements of an array up to its end; at least one. -/
def elements : Nat → Nat → Text → Option (List Datum × Text)
  | 0, _, _ => none
  | fuel + 1, depth, t =>
    match value fuel depth t with
    | none => none
    | some (d, r) =>
      match expect 0x2C r with
      | some r => (elements fuel depth r).map fun (ds, r) => (d :: ds, r)
      | none => (expect 0x5D r).map fun r => ([d], r)

/-- The entries of a map up to its end; at least one. -/
def entries : Nat → Nat → Text → Option (List (Text × Datum) × Text)
  | 0, _, _ => none
  | fuel + 1, depth, t =>
    match key? (skipSpace t) with
    | none => none
    | some (key, r) =>
      match expect 0x3A r with
      | none => none
      | some r =>
        match value fuel depth r with
        | none => none
        | some (d, r) =>
          match expect 0x2C r with
          | some r => (entries fuel depth r).map fun (es, r) => (Datum.withEntry key d es, r)
          | none => (expect 0x7D r).map fun r => ([(key, d)], r)

end

/-- The first value of a text; what follows it does not matter. -/
def read (t : Text) : Option Datum := (value (2 * t.length + 2) 0 t).map Prod.fst

end SmallLisp.Json
