import SmallLisp.Text.Utf8

/-!
# Source locations

A location is a line and a column, both counted from one. Values built at run time have none, which
is written as the location `0:0`. Every complaint of the language reads the same way: what kind of
error, where (if that is known), which cause, and any detail.
-/

namespace SmallLisp

/-- A place in source text, or `0:0` for no place. -/
structure Loc where
  line : Nat
  column : Nat
deriving DecidableEq, Repr

namespace Loc

/-- No place in any source. -/
def unknown : Loc := ⟨0, 0⟩

/-- Where source text starts. -/
def start : Loc := ⟨1, 1⟩

instance : Inhabited Loc := ⟨unknown⟩

/-- The location after a character at this one. -/
def advance (l : Loc) (c : Char) : Loc :=
  if c = '\n' then ⟨l.line + 1, 1⟩ else ⟨l.line, l.column + 1⟩

/-- The location after a run of characters. -/
def advanceBy (l : Loc) (cs : List Char) : Loc := cs.foldl advance l

/-- The wording of a location. -/
def describe (l : Loc) : String := s!"line {l.line}, column {l.column}"

end Loc

/-- The wording of an error: its phase, its location if it has one, its kind, and the detail if
    there is any. -/
def complaint (phase : String) (loc : Loc) (kind : String) (detail : Text) : Text :=
  let place := if loc = Loc.unknown then "" else " at " ++ loc.describe
  let head : Text := phase ++ " error" ++ place ++ ": " ++ kind
  if detail.isEmpty then head else head ++ ": " ++ detail

end SmallLisp
