import SmallLisp.Text.Utf8

/-!
# Completion

A word that is being typed right after an opening bracket is completed to the names that start with
it.
-/

namespace SmallLisp.Completion

/-- The bytes that a word does not go beyond: the opening brackets and the blank. -/
def isBreak (b : UInt8) : Bool := b == 0x28 || b == 0x5B || b == 0x7B || b == 0x20

/-- The word at the end of a line. -/
def lastWord (line : Text) : Text := (line.reverse.takeWhile fun b => !isBreak b).reverse

/-- The completions of a line, in the order of the names. There are none for a line without a break
    and after a blank. -/
def completions (names : List Text) (line : Text) : List Text :=
  let word := lastWord line
  let head := line.take (line.length - word.length)
  match head.getLast? with
  | none => []
  | some b =>
    if b = 0x20 then []
    else (names.filter fun name => word.isPrefixOf name).map fun name => head ++ name ++ [0x20]

end SmallLisp.Completion
