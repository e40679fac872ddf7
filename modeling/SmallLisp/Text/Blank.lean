import SmallLisp.Text.Utf8

/-!
# White space between words

The white space characters of Unicode, and two cuts of a byte string along them: `trim` takes them
off both ends and `words` gives the runs between them. A stray byte is not white space.
-/

namespace SmallLisp

/-- The characters with the Unicode property White_Space. -/
def isBlank (c : Char) : Bool :=
  let n := c.toNat
  (0x09 ≤ n && n ≤ 0x0D) || n == 0x20 || n == 0x85 || n == 0xA0 || n == 0x1680
    || (0x2000 ≤ n && n ≤ 0x200A) || n == 0x2028 || n == 0x2029 || n == 0x202F
    || n == 0x205F || n == 0x3000

namespace Text

/-- The piece is a white space character. -/
def isBlankPiece : Utf8.Piece → Bool
  | .char c => isBlank c
  | .stray _ => false

/-- The bytes of a list of pieces. -/
def ofPieces (ps : List Utf8.Piece) : Text := ps.flatMap Utf8.Piece.bytes

/-- The text without white space at its ends. -/
def trim (t : Text) : Text :=
  ofPieces (((Utf8.pieces t).dropWhile isBlankPiece).reverse.dropWhile isBlankPiece).reverse

/-- Splits pieces into runs without white space; `run` is the run being read, newest first. -/
def wordsFrom (run : List Utf8.Piece) : List Utf8.Piece → List Text
  | [] => if run.isEmpty then [] else [ofPieces run.reverse]
  | p :: ps =>
    if isBlankPiece p then
      if run.isEmpty then wordsFrom [] ps else ofPieces run.reverse :: wordsFrom [] ps
    else wordsFrom (p :: run) ps

/-- The maximal runs without white space, in order. -/
def words (t : Text) : List Text := wordsFrom [] (Utf8.pieces t)

end Text

end SmallLisp
