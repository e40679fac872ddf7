import SmallLisp.Repl.Lines
import SmallLisp.Text.Blank

/-!
# History

The lines typed so far, oldest first. Blank lines and immediate repetitions are left out, and only
the newest lines are kept. A history is kept in a file with one entry per line.
-/

namespace SmallLisp

/-- Lines typed so far, oldest first. -/
abbrev History := List Text

namespace History

/-- How many lines are kept. -/
def limit : Nat := 1000

/-- The newest lines of a history. -/
def newest (h : History) : History := h.drop (h.length - limit)

/-- The history after one more line. -/
def record (h : History) (line : Text) : History :=
  if line.trim.isEmpty ∨ h.getLast? = some line then h else newest (h ++ [line])

/-- The history in a file. Reading stops at a line that is too long for the buffer or is not
    UTF-8. -/
def ofText (t : Text) : History :=
  newest (((Lines.parts t).takeWhile fun p => !p.more && Utf8.isValid p.text).map Lines.Part.text)

/-- The content of the file for a history. -/
def text (h : History) : Text := h.flatMap (· ++ [0x0A])

end History

end SmallLisp
