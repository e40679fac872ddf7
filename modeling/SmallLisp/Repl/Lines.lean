import SmallLisp.Text.Utf8

/-!
# Lines of input

Input is read line by line through a buffer. A line ends with a line feed, with or without a
carriage return before it; the last line may end with the input. A line that does not fit the buffer
comes in several parts.

There are two ways to use the parts. A plain reader joins the parts of a line, and loses a line
whose parts fill the buffer up to the end of the input. A line editor takes every part for a line.
-/

namespace SmallLisp.Lines

/-- How many bytes the buffer holds. -/
def bufferSize : Nat := 4096

/-- What one read gives: some bytes, and whether their line goes on. -/
structure Part where
  text : Text
  more : Bool
deriving DecidableEq, Repr

/-- The byte is no line feed. -/
def within (b : UInt8) : Bool := b != 0x0A

/-- The bytes before a line feed without a carriage return at their end. -/
def dropReturn (line : Text) : Text := if line.getLast? = some 0x0D then line.dropLast else line

/-- One read: the part at the front of the input and what is left. A carriage return that would end
    a full buffer is left for the next read, since a line feed may follow it. -/
def next? (t : Text) : Option (Part × Text) :=
  let front := t.take bufferSize
  let line := front.takeWhile within
  if t.isEmpty then none
  else if line.length < front.length then some (⟨dropReturn line, false⟩, t.drop (line.length + 1))
  else if front.length < bufferSize then some (⟨front, false⟩, [])
  else
    let kept := dropReturn front
    some (⟨kept, true⟩, t.drop kept.length)

theorem length_dropReturn (line : Text) : line.length - 1 ≤ (dropReturn line).length := by
  unfold dropReturn
  split
  · simp
  · omega

/-- Every read takes something from the input. -/
theorem length_rest_lt {t rest : Text} {p : Part} (h : next? t = some (p, rest)) :
    rest.length < t.length := by
  have ht : t.isEmpty = false := by
    cases t with
    | nil => simp [next?] at h
    | cons b t => rfl
  have hpos : 0 < t.length := by
    cases t with
    | nil => simp at ht
    | cons b t => simp
  have hk := length_dropReturn (t.take bufferSize)
  simp only [next?, ht, Bool.false_eq_true, if_false] at h
  split at h
  · simp only [Option.some.injEq, Prod.mk.injEq] at h
    rw [← h.2, List.length_drop]
    omega
  · split at h
    · simp only [Option.some.injEq, Prod.mk.injEq] at h
      rw [← h.2]
      exact hpos
    · rename_i hfull
      simp only [Option.some.injEq, Prod.mk.injEq] at h
      rw [← h.2, List.length_drop]
      have : 2 ≤ bufferSize := by decide
      omega

/-- The whole input, read after read. -/
def parts (t : Text) : List Part :=
  match _h : next? t with
  | none => []
  | some (p, rest) => p :: parts rest
termination_by t.length
decreasing_by exact length_rest_lt ‹_›

/-- The lines that parts make up. The last is left out if its end never came. -/
def joined : List Part → List Text
  | [] => []
  | ⟨text, false⟩ :: ps => text :: joined ps
  | ⟨text, true⟩ :: ps =>
    match joined ps with
    | [] => []
    | line :: lines => (text ++ line) :: lines

/-- The lines of the input as a plain reader sees them. -/
def plain (t : Text) : List Text := joined (parts t)

/-- The lines of the input as a line editor sees them. -/
def edited (t : Text) : List Text := (parts t).map Part.text

end SmallLisp.Lines
