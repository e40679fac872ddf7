import SmallLisp.Node.Basic
import SmallLisp.Token.Lexer

/-!
# From tokens to syntax trees

Reading goes down into the lists as it comes to them and asks for one token after the other. A quote
waits for the expression behind it: one quote marks the expression as quoted, and each further quote
wraps it in a list headed by the atom `quote`, the mark standing on the outermost.

* `Reader.next` reads one expression and can be called again, also after an error;
* `parse` reads a whole program.

A closing bracket and the end of the text are found like expressions (`Item`). What they mean is up
to the caller: they end the list that is being read, or the program, or are out of place.
-/

namespace SmallLisp

/-! ## 1. Errors -/

/-- Why tokens do not form an expression. -/
inductive StructureCause where
  /-- The text ends inside a list. -/
  | neverClosed (b : Bracket)
  /-- A list ends with another bracket than it began with. -/
  | mismatched (opened : Bracket) (openedAt : Loc) (closed : Bracket)
  /-- A closing bracket outside every list. -/
  | noOpener (b : Bracket)
  /-- A quote before a closing bracket. -/
  | nothingToQuote (b : Bracket)
  /-- A quote before the end of the text. -/
  | quoteAtEnd
deriving DecidableEq, Repr

/-- A structural error. A list that is never closed is located at its opening bracket. -/
structure StructureError where
  loc : Loc
  cause : StructureCause
deriving DecidableEq, Repr

/-- The kind of a structural error. -/
def StructureCause.kind : StructureCause → String
  | neverClosed _ => "unbalanced delimiter"
  | mismatched _ _ _ => "mismatched delimiter"
  | noOpener _ | nothingToQuote _ | quoteAtEnd => "unexpected token"

/-- A character between single quotes. -/
def ticked (c : Char) : String := "'" ++ c.toString ++ "'"

/-- What a structural error says beyond its kind. -/
def StructureCause.detail : StructureCause → String
  | neverClosed b => ticked b.openChar ++ " is never closed"
  | mismatched opened at_ closed =>
    ticked opened.openChar ++ " opened at " ++ at_.describe ++ " closed by "
      ++ ticked closed.closeChar
  | noOpener b => ticked b.closeChar ++ " has no matching opener"
  | nothingToQuote b => "nothing to quote before " ++ ticked b.closeChar
  | quoteAtEnd => "quote at end of input"

/-- The full wording of a structural error. -/
def StructureError.message (e : StructureError) : Text :=
  complaint "syntax" e.loc e.cause.kind e.cause.detail

/-- Why source text cannot be read. -/
inductive ReadError where
  | lexical (e : LexError)
  | structural (e : StructureError)
deriving DecidableEq, Repr

/-- The kind of a reading error. -/
def ReadError.kind : ReadError → String
  | lexical e => e.cause.kind
  | structural e => e.cause.kind

/-- The full wording of a reading error. -/
def ReadError.message : ReadError → Text
  | lexical e => e.message
  | structural e => e.message

/-! ## 2. One expression at a time -/

/-- What one call for an expression finds. A closing bracket and the end of the text are no
    expressions: they tell a list or a program that is being read that it ends. -/
inductive Item where
  | expr (n : Node)
  | closer (b : Bracket) (loc : Loc)
  | eof (loc : Loc)

/-- The item as a node. -/
def Item.node : Item → Node
  | expr n => n
  | closer _ loc | eof loc => .unit ⟨loc, false⟩

/-- A text that is read one expression at a time: where reading has come to, and whether a quote was
    read that waits for its expression. -/
structure Reader where
  cursor : Cursor
  quoting : Bool
deriving DecidableEq

namespace Reader

/-- A reader at the start of a text given as characters. -/
def ofChars (cs : List Char) : Reader := ⟨Cursor.ofChars cs, false⟩

/-- A reader at the start of a text. -/
def ofText (src : Text) : Reader := ofChars (Utf8.decode src)

/-- The line that reading has come to. -/
def line (r : Reader) : Nat := r.cursor.loc.line

/-- How many characters are left. -/
def left (r : Reader) : Nat := r.cursor.rest.length

/-- A call that finds something does not go back, and goes on if that is an expression. -/
def Goes (r : Reader) : Except ReadError Item × Reader → Prop
  | (.ok (.expr _), r') => r'.left < r.left
  | (.ok _, r') => r'.left ≤ r.left
  | (.error _, _) => True

theorem Goes.le {r r' : Reader} {item : Item} (h : r.Goes (.ok item, r')) : r'.left ≤ r.left := by
  cases item with
  | expr n => exact Nat.le_of_lt h
  | closer | eof => exact h

theorem Goes.of_lt {r r' : Reader} (h : r'.left < r.left) (item : Item) :
    r.Goes (.ok item, r') := by
  cases item with
  | expr n => exact h
  | closer | eof => exact Nat.le_of_lt h

mutual

/-- Reads one expression. A quote waits for the token behind it: the expression that starts there is
    marked as quoted, and a quote behind a quote puts its expression, without the mark, into a list
    headed by the atom `quote`, which is marked in its place. -/
def read (r : Reader) : { out : Except ReadError Item × Reader // r.Goes out } :=
  match h : r.cursor.next with
  | (.error e, cur) => ⟨(.error (.lexical e), { r with cursor := cur }), trivial⟩
  | (.ok t, cur) =>
    have hle : left ⟨cur, false⟩ ≤ r.left := length_rest_next_le h
    have hlt (hne : t.kind ≠ .eof) : left ⟨cur, false⟩ < r.left := length_rest_next_lt h hne
    match hkind : t.kind with
    | .eof =>
      if r.quoting then ⟨(.error (.structural ⟨t.loc, .quoteAtEnd⟩), ⟨cur, false⟩), trivial⟩
      else ⟨(.ok (.eof t.loc), ⟨cur, false⟩), hle⟩
    | .quote =>
      have hshorter : left ⟨cur, true⟩ < r.left := hlt (by simp [hkind])
      match read ⟨cur, true⟩ with
      | ⟨(.error e, r'), _⟩ => ⟨(.error e, r'), trivial⟩
      | ⟨(.ok item, r'), hgoes⟩ =>
        have hless := Nat.lt_of_le_of_lt hgoes.le hshorter
        if r.quoting then
          let n := item.node.withQuote false
          ⟨(.ok (.expr (.list ⟨t.loc, true⟩ [.atom ⟨t.loc, false⟩ "quote", n])), r'), hless⟩
        else ⟨(.ok item, r'), .of_lt hless item⟩
    | .opener b =>
      have hshorter := hlt (by simp [hkind])
      match readList b ⟨t.loc, r.quoting⟩ [] ⟨cur, false⟩ with
      | ⟨(.error e, r'), _⟩ => ⟨(.error e, r'), trivial⟩
      | ⟨(.ok n, r'), hgoes⟩ => ⟨(.ok (.expr n), r'), Nat.lt_of_le_of_lt (hgoes rfl) hshorter⟩
    | .closer b =>
      if r.quoting then ⟨(.error (.structural ⟨t.loc, .nothingToQuote b⟩), ⟨cur, false⟩), trivial⟩
      else ⟨(.ok (.closer b t.loc), ⟨cur, false⟩), hle⟩
    | .number _ x =>
      ⟨(.ok (.expr (.number ⟨t.loc, r.quoting⟩ x)), ⟨cur, false⟩), hlt (by simp [hkind])⟩
    | .boolean b =>
      ⟨(.ok (.expr (.bool ⟨t.loc, r.quoting⟩ b)), ⟨cur, false⟩), hlt (by simp [hkind])⟩
    | .string s =>
      ⟨(.ok (.expr (.string ⟨t.loc, r.quoting⟩ s)), ⟨cur, false⟩), hlt (by simp [hkind])⟩
    | .atom name =>
      ⟨(.ok (.expr (.atom ⟨t.loc, r.quoting⟩ name)), ⟨cur, false⟩), hlt (by simp [hkind])⟩
termination_by 2 * r.left
decreasing_by all_goals omega

/-- Reads the rest of a list up to the bracket that closes it. The parts so far are given with the
    newest first. -/
def readList (b : Bracket) (info : NodeInfo) (parts : List Node) (r : Reader) :
    { out : Except ReadError Node × Reader // out.1.isOk = true → out.2.left ≤ r.left } :=
  match read r with
  | ⟨(.error e, r'), _⟩ => ⟨(.error e, r'), fun h => by cases h⟩
  | ⟨(.ok (.closer b' loc), r'), hle⟩ =>
    if b' = b then ⟨(.ok (.list info parts.reverse), r'), fun _ => hle⟩
    else ⟨(.error (.structural ⟨loc, .mismatched b info.loc b'⟩), r'), fun h => by cases h⟩
  | ⟨(.ok (.eof _), r'), _⟩ =>
    ⟨(.error (.structural ⟨info.loc, .neverClosed b⟩), r'), fun h => by cases h⟩
  | ⟨(.ok (.expr n), r'), hlt⟩ =>
    have hshorter : r'.left < r.left := hlt
    let ⟨out, hout⟩ := readList b info (n :: parts) r'
    ⟨out, fun h => Nat.le_trans (hout h) (Nat.le_of_lt hlt)⟩
termination_by 2 * r.left + 1
decreasing_by all_goals omega

end

/-- What one call for an expression gives, and the reader after it, from which the next call goes
    on, also after an error. At the end of the text every call finds the end. -/
def next (r : Reader) : Except ReadError Item × Reader := r.read.val

/-- The results of `n` calls for an expression, each with the reader after it. -/
def steps : Nat → Reader → List (Except ReadError Item × Reader)
  | 0, _ => []
  | n + 1, r =>
    let result := r.next
    result :: steps n result.2

/-- Reads expressions up to the end of the text. Those read so far are given with the newest first.
    A closing bracket outside every list is an error. -/
def programFrom (done : List Node) (r : Reader) : Except ReadError (List Node) :=
  match r.read with
  | ⟨(.error e, _), _⟩ => .error e
  | ⟨(.ok (.closer b loc), _), _⟩ => .error (.structural ⟨loc, .noOpener b⟩)
  | ⟨(.ok (.eof _), _), _⟩ => .ok done.reverse
  | ⟨(.ok (.expr n), r'), hlt⟩ =>
    have : r'.left < r.left := hlt
    programFrom (n :: done) r'
termination_by r.left

end Reader

/-! ## 3. Programs -/

/-- The expressions of a text given as characters. -/
def parseChars (cs : List Char) : Except ReadError (List Node) := (Reader.ofChars cs).programFrom []

/-- The program that consists of these expressions. -/
def programOf (ns : List Node) : Node := .progn ⟨Loc.start, false⟩ ns

/-- Reads a complete program. -/
def parse (src : Text) : Except ReadError Node :=
  match parseChars (Utf8.decode src) with
  | .ok ns => .ok (programOf ns)
  | .error e => .error e

end SmallLisp
