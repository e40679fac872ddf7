import SmallLisp.Text.Printable
import SmallLisp.Text.Utf8

/-!
# Quoted text

A byte string between double quotes, in which every byte that cannot be shown is escaped: control
characters by letter where one is customary, else by two hexadecimal digits, stray bytes by two,
other characters that are not printable by four or eight.
-/

namespace SmallLisp

/-- `n` in hexadecimal with at least `width` digits. -/
def hexDigits (width n : Nat) : String :=
  let digits := Nat.toDigits 16 n
  String.ofList (List.replicate (width - digits.length) '0' ++ digits)

namespace Text

/-- The escaped form of one piece of a quoted text. -/
def escapePiece : Utf8.Piece → Text
  | .stray b => s!"\\x{hexDigits 2 b.toNat}"
  | .char c =>
    match c.toNat with
    | 0x22 => "\\\""
    | 0x5C => "\\\\"
    | 0x07 => "\\a"
    | 0x08 => "\\b"
    | 0x0C => "\\f"
    | 0x0A => "\\n"
    | 0x0D => "\\r"
    | 0x09 => "\\t"
    | 0x0B => "\\v"
    | n =>
      if isPrintable c then Utf8.encodeChar c
      else if n < 0x20 || n == 0x7F then s!"\\x{hexDigits 2 n}"
      else if n < 0x10000 then s!"\\u{hexDigits 4 n}"
      else s!"\\U{hexDigits 8 n}"

/-- The text between double quotes, escaped. -/
def quoted (t : Text) : Text :=
  "\"" ++ (Utf8.pieces t).flatMap escapePiece ++ "\""

end Text

end SmallLisp
