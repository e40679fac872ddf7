import SmallLisp.Token.Basic

/-!
# From characters to tokens

`Cursor.next` takes one token off the source. White space and comments between tokens are skipped.
A bracket and a quote are tokens by themselves, and a string has no escapes and ends at the next
double quote. Everything else is tried in turn as a number, as a truth value and as an atom
(`Cursor.lexWord`); each of these looks ahead before it takes anything.

A call that fails stays in front of the offending character, except that a string without end has
consumed everything.
-/

namespace SmallLisp

/-! ## 1. Character classes -/

/-- White space of source text. -/
def isSpace (c : Char) : Bool := c == ' ' || c == '\t' || c == '\r' || c == '\n'

/-- Characters that end an atom or a number. -/
def isDelimiter (c : Char) : Bool :=
  c == Char.ofNat 0 || c == '(' || c == ')' || c == '[' || c == ']' || c == '\x7b' || c == '\x7d'
    || c == '\'' || c == '"' || c == Char.ofNat 0x60 || c == ';' || isSpace c

/-- The tokens of a single character. -/
def markOf? (c : Char) : Option TokenKind :=
  if c == '(' then some (.opener .paren)
  else if c == ')' then some (.closer .paren)
  else if c == '[' then some (.opener .square)
  else if c == ']' then some (.closer .square)
  else if c == '\x7b' then some (.opener .curly)
  else if c == '\x7d' then some (.closer .curly)
  else if c == '\'' then some .quote
  else none

/-! ## 2. Errors -/

/-- Why no token can be read. -/
inductive LexCause where
  | malformedNumber (text : String)
  | unexpectedChar (c : Char)
  | unterminatedString
deriving DecidableEq, Repr

/-- A lexical error at the first character of the offending token. -/
structure LexError where
  loc : Loc
  cause : LexCause
deriving DecidableEq, Repr

/-- The kind of a lexical error. -/
def LexCause.kind : LexCause → String
  | malformedNumber _ => "bad token"
  | unexpectedChar _ => "unexpected character"
  | unterminatedString => "unterminated string"

/-- What a lexical error says beyond its kind. -/
def LexCause.detail : LexCause → String
  | malformedNumber text => "malformed number '" ++ text ++ "'"
  | unexpectedChar c => if c = Char.ofNat 0 then "'\\x00'" else "'" ++ c.toString ++ "'"
  | unterminatedString => ""

/-- The full wording of a lexical error. -/
def LexError.message (e : LexError) : Text :=
  complaint "lexical" e.loc e.cause.kind e.cause.detail

/-! ## 3. Numerals -/

/-- The value of digits with at most one point among them; none if the digits are not of that form
    or the value is too large. -/
def readMagnitude? (w : List Char) : Option Float :=
  let whole := w.takeWhile Char.isDigit
  let finite (x : Float) : Option Float := if x.isInf then none else some x
  match w.dropWhile Char.isDigit with
  | [] => finite (Decimal.toFloat ⟨natOfDigits whole, 0⟩)
  | '.' :: frac =>
    if frac.all Char.isDigit then
      finite (Decimal.toFloat ⟨natOfDigits (whole ++ frac), -frac.length⟩)
    else none
  | _ => none

/-- The value of digits with an optional minus before them, if they stand for a number. -/
def readNumeral? (w : List Char) : Option Float :=
  match w with
  | '-' :: r => (readMagnitude? r).map (signed true)
  | _ => readMagnitude? w

/-! ## 4. The cursor -/

/-- What is left of a source text, and where that starts. -/
structure Cursor where
  rest : List Char
  loc : Loc
deriving DecidableEq, Repr

namespace Cursor

/-- The cursor at the start of a text. -/
def ofChars (cs : List Char) : Cursor := ⟨cs, Loc.start⟩

/-- The character so many places ahead. Behind the end of the text there is a NUL, so that the end
    is a delimiter too. -/
def peek (cur : Cursor) (ahead : Nat) : Char := cur.rest.getD ahead (Char.ofNat 0)

theorem lt_length_of_peek {cur : Cursor} {i : Nat} (h : cur.peek i ≠ Char.ofNat 0) :
    i < cur.rest.length := by
  rcases Nat.lt_or_ge i cur.rest.length with hlt | hge
  · exact hlt
  · exact absurd (by rw [peek, List.getD_eq_getElem?_getD, List.getElem?_eq_none hge]; rfl) h

/-- Passes one character. -/
def advance : Cursor → Cursor
  | ⟨[], loc⟩ => ⟨[], loc⟩
  | ⟨c :: cs, loc⟩ => ⟨cs, loc.advance c⟩

/-- Passes so many characters. -/
def pass : Nat → Cursor → Cursor
  | 0, cur => cur
  | n + 1, cur => cur.advance.pass n

end Cursor

/-- Passes characters up to one that stops it or to the end of the text, and gives what it has
    passed, of which `passed` is the beginning, the last character first. -/
def passUntil (stops : Char → Bool) (passed : List Char) (loc : Loc) :
    List Char → List Char × Cursor
  | [] => (passed.reverse, ⟨[], loc⟩)
  | c :: cs =>
    if stops c then (passed.reverse, ⟨c :: cs, loc⟩)
    else passUntil stops (c :: passed) (loc.advance c) cs

/-- Skips white space and comments; `comment` says that the text starts inside a comment, which ends
    with its line. -/
def skipGap : Bool → Loc → List Char → Cursor
  | _, loc, [] => ⟨[], loc⟩
  | comment, loc, c :: cs =>
    if comment then skipGap (c != '\n') (loc.advance c) cs
    else if isSpace c then skipGap false (loc.advance c) cs
    else if c == ';' then skipGap true (loc.advance c) cs
    else ⟨c :: cs, loc⟩

/-! ## 5. Tokens -/

namespace Cursor

/-- Where the digits end that start `i` places ahead, with one point among them unless there was one
    before. -/
def digitsEnd (cur : Cursor) (pointSeen : Bool) (i : Nat) : Nat :=
  if cur.peek i = '.' then
    if pointSeen then i else cur.digitsEnd true (i + 1)
  else if (cur.peek i).isDigit then cur.digitsEnd pointSeen (i + 1)
  else i
termination_by cur.rest.length - i
decreasing_by
  · have := cur.lt_length_of_peek (i := i) (by rw [‹cur.peek i = '.'›]; decide)
    omega
  · have := cur.lt_length_of_peek (i := i) fun h => by simp [h] at *
    omega

/-- Where the run of characters other than delimiters ends that goes on `i` places ahead. -/
def wordEnd (cur : Cursor) (i : Nat) : Nat :=
  if isDelimiter (cur.peek i) then i else cur.wordEnd (i + 1)
termination_by cur.rest.length - i
decreasing_by
  have := cur.lt_length_of_peek (i := i) fun h => by simp [h, isDelimiter] at *
  omega

/-- Where the digits of a number start: behind an optional minus and an optional point. It also says
    whether there is a point. -/
def numberStart (cur : Cursor) : Bool × Nat :=
  let i := if cur.peek 0 = '-' then 1 else 0
  if cur.peek i = '.' then (true, i + 1) else (false, i)

/-- Reads a number: an optional minus, an optional point, a digit, and then digits and a point if
    there was none. What starts like a number and does not end at a delimiter is a bad token, and so
    is a number that is too large. What does not start like a number is left to others. -/
def lexNumber (cur : Cursor) : Except LexError (Option (Token × Cursor)) :=
  let (pointSeen, start) := cur.numberStart
  if ! (cur.peek start).isDigit then .ok none
  else
    let i := cur.digitsEnd pointSeen start
    if ! isDelimiter (cur.peek i) then
      let bad := String.ofList (cur.rest.take (cur.wordEnd i))
      .error ⟨cur.loc, .malformedNumber bad⟩
    else
      let text := cur.rest.take i
      match readNumeral? text with
      | some x => .ok (some (⟨.number (String.ofList text) x, cur.loc⟩, cur.pass i))
      | none => .error ⟨cur.loc, .malformedNumber (String.ofList text)⟩

/-- Reads `#t` or `#f` where a delimiter follows. -/
def lexBool (cur : Cursor) : Option (Token × Cursor) :=
  let c := cur.peek 1
  if cur.peek 0 ≠ '#' then none
  else if (c ≠ 't' ∧ c ≠ 'f') ∨ ! isDelimiter (cur.peek 2) then none
  else some (⟨.boolean (c == 't'), cur.loc⟩, cur.pass 2)

/-- Reads an atom, which goes to the next delimiter. -/
def lexAtom (cur : Cursor) : Except LexError Token × Cursor :=
  match passUntil isDelimiter [] cur.loc cur.rest with
  | ([], _) => (.error ⟨cur.loc, .unexpectedChar (cur.peek 0)⟩, cur)
  | (name, after) => (.ok ⟨.atom (String.ofList name), cur.loc⟩, after)

/-- Reads a string, from its opening double quote to the next one. -/
def lexString (cur : Cursor) : Except LexError Token × Cursor :=
  match passUntil (· == '"') [] cur.advance.loc cur.advance.rest with
  | (_, ⟨[], loc⟩) => (.error ⟨cur.loc, .unterminatedString⟩, ⟨[], loc⟩)
  | (body, closing) => (.ok ⟨.string (String.ofList body), cur.loc⟩, closing.advance)

/-- Tries a number, a truth value and an atom in turn. -/
def lexWord (cur : Cursor) : Except LexError Token × Cursor :=
  match cur.lexNumber with
  | .error e => (.error e, cur)
  | .ok (some (t, after)) => (.ok t, after)
  | .ok none =>
    match cur.lexBool with
    | some (t, after) => (.ok t, after)
    | none => cur.lexAtom

end Cursor

/-- Reads the token that starts with the character `c`. -/
def tokenAt (loc : Loc) (c : Char) (cs : List Char) : Except LexError Token × Cursor :=
  match markOf? c with
  | some kind => (.ok ⟨kind, loc⟩, ⟨cs, loc.advance c⟩)
  | none =>
    if c == '"' then Cursor.lexString ⟨c :: cs, loc⟩
    else if c == Char.ofNat 0x60 then (.error ⟨loc, .unexpectedChar c⟩, ⟨c :: cs, loc⟩)
    else Cursor.lexWord ⟨c :: cs, loc⟩

/-- The next token and the cursor after it. At the end of the text every call gives the end. -/
def Cursor.next (cur : Cursor) : Except LexError Token × Cursor :=
  match skipGap false cur.loc cur.rest with
  | ⟨[], loc⟩ => (.ok ⟨.eof, loc⟩, ⟨[], loc⟩)
  | ⟨c :: cs, loc⟩ => tokenAt loc c cs

/-! ## 6. Every token of a text -/

theorem length_rest_skipGap_le (comment : Bool) (loc : Loc) (cs : List Char) :
    (skipGap comment loc cs).rest.length ≤ cs.length := by
  induction cs generalizing comment loc with
  | nil => simp [skipGap]
  | cons c cs ih =>
    unfold skipGap
    split
    · exact Nat.le_succ_of_le (ih _ _)
    · split
      · exact Nat.le_succ_of_le (ih _ _)
      · split
        · exact Nat.le_succ_of_le (ih _ _)
        · simp

theorem length_rest_advance (cur : Cursor) : cur.advance.rest.length = cur.rest.length - 1 := by
  rcases cur with ⟨_ | ⟨c, cs⟩, loc⟩ <;> rfl

theorem length_rest_pass (n : Nat) (cur : Cursor) :
    (cur.pass n).rest.length = cur.rest.length - n := by
  induction n generalizing cur with
  | zero => rfl
  | succ n ih =>
    rw [Cursor.pass, ih, length_rest_advance]
    omega

/-- What was passed and what is left are the text. -/
theorem length_passUntil (stops : Char → Bool) (passed : List Char) (loc : Loc) (cs : List Char) :
    (passUntil stops passed loc cs).1.length + (passUntil stops passed loc cs).2.rest.length =
      passed.length + cs.length := by
  induction cs generalizing passed loc with
  | nil => simp [passUntil]
  | cons c cs ih =>
    unfold passUntil
    split
    · simp
    · rw [ih]
      simp only [List.length_cons]
      omega

theorem le_digitsEnd (cur : Cursor) (pointSeen : Bool) (i : Nat) :
    i ≤ cur.digitsEnd pointSeen i := by
  fun_induction Cursor.digitsEnd cur pointSeen i with
  | case1 => exact Nat.le_refl _
  | case2 _ _ _ _ ih => exact Nat.le_of_succ_le ih
  | case3 _ _ _ _ ih => exact Nat.le_of_succ_le ih
  | case4 => exact Nat.le_refl _

/-- A number has a digit. -/
theorem pos_digitsEnd {cur : Cursor} {pointSeen : Bool} {i : Nat}
    (h : (cur.peek i).isDigit = true) : 0 < cur.digitsEnd pointSeen i := by
  have hpoint : cur.peek i ≠ '.' := fun hp => by simp [hp] at h
  rw [Cursor.digitsEnd, if_neg hpoint, if_pos h]
  exact Nat.lt_of_lt_of_le (Nat.succ_pos i) (le_digitsEnd cur pointSeen (i + 1))

theorem length_rest_lexNumber_lt {cur cur' : Cursor} {t : Token} (hcur : cur.rest ≠ [])
    (h : cur.lexNumber = .ok (some (t, cur'))) : cur'.rest.length < cur.rest.length := by
  have hpos := List.length_pos_iff.mpr hcur
  unfold Cursor.lexNumber at h
  dsimp only at h
  split at h
  · cases h
  · rename_i hdigit
    have hend : 0 < cur.digitsEnd cur.numberStart.1 cur.numberStart.2 :=
      pos_digitsEnd (by simpa using hdigit)
    split at h
    · cases h
    · split at h
      · cases h
        rw [length_rest_pass]
        omega
      · cases h

theorem length_rest_lexWord_lt {cur cur' : Cursor} {t : Token} (hcur : cur.rest ≠ [])
    (h : cur.lexWord = (.ok t, cur')) : cur'.rest.length < cur.rest.length := by
  have hpos := List.length_pos_iff.mpr hcur
  unfold Cursor.lexWord at h
  split at h
  · cases h
  · rename_i hnumber
    cases h
    exact length_rest_lexNumber_lt hcur hnumber
  · split at h
    · rename_i hbool
      cases h
      unfold Cursor.lexBool at hbool
      dsimp only at hbool
      split at hbool
      · cases hbool
      · split at hbool
        · cases hbool
        · cases hbool
          rw [length_rest_pass]
          omega
    · unfold Cursor.lexAtom at h
      have hlength := length_passUntil isDelimiter [] cur.loc cur.rest
      split at h
      · cases h
      · rename_i name after hname hatom
        cases h
        rw [hatom] at hlength
        have hname : 0 < name.length := List.length_pos_iff.mpr hname
        simp only [List.length_nil] at hlength
        omega

theorem length_rest_lexString_lt {cur cur' : Cursor} {t : Token} (hcur : cur.rest ≠ [])
    (h : cur.lexString = (.ok t, cur')) : cur'.rest.length < cur.rest.length := by
  have hpos := List.length_pos_iff.mpr hcur
  have hlength := length_passUntil (· == '"') [] cur.advance.loc cur.advance.rest
  rw [length_rest_advance] at hlength
  unfold Cursor.lexString at h
  split at h
  · cases h
  · rename_i hbody
    cases h
    rw [hbody] at hlength
    rw [length_rest_advance]
    simp only [List.length_nil] at hlength
    omega

theorem length_rest_tokenAt_le {loc : Loc} {c : Char} {cs : List Char} {t : Token} {cur : Cursor}
    (h : tokenAt loc c cs = (.ok t, cur)) : cur.rest.length ≤ cs.length := by
  unfold tokenAt at h
  split at h
  · cases h
    exact Nat.le_refl _
  · split at h
    · exact Nat.le_of_lt_succ (length_rest_lexString_lt (List.cons_ne_nil c cs) h)
    · split at h
      · cases h
      · exact Nat.le_of_lt_succ (length_rest_lexWord_lt (List.cons_ne_nil c cs) h)

theorem length_rest_next_le {cur cur' : Cursor} {t : Token} (h : cur.next = (.ok t, cur')) :
    cur'.rest.length ≤ cur.rest.length := by
  have hgap := length_rest_skipGap_le false cur.loc cur.rest
  unfold Cursor.next at h
  split at h
  · cases h
    exact Nat.zero_le _
  · rename_i c cs loc hrest
    have := length_rest_tokenAt_le h
    rw [hrest] at hgap
    simp only [List.length_cons] at hgap
    omega

/-- A token other than the end takes at least one character. -/
theorem length_rest_next_lt {cur cur' : Cursor} {t : Token} (h : cur.next = (.ok t, cur'))
    (ht : t.kind ≠ .eof) : cur'.rest.length < cur.rest.length := by
  have hgap := length_rest_skipGap_le false cur.loc cur.rest
  unfold Cursor.next at h
  split at h
  · cases h
    exact absurd rfl ht
  · rename_i c cs loc hrest
    have := length_rest_tokenAt_le h
    rw [hrest] at hgap
    simp only [List.length_cons] at hgap
    omega

/-- A token with the location just after it. -/
structure Lexeme where
  token : Token
  after : Loc
deriving DecidableEq

/-- How a text ends after its last token: with the end token, or with an error, which leaves the
    cursor where it is given. -/
inductive Ending where
  | eof (loc : Loc)
  | failed (e : LexError) (cursor : Cursor)
deriving DecidableEq

/-- All tokens up to the end of the text or the first error. -/
def Cursor.lexemes (cur : Cursor) : List Lexeme × Ending :=
  match h : cur.next with
  | (.error e, cur') => ([], .failed e cur')
  | (.ok t, cur') =>
    if ht : t.kind = .eof then ([], .eof t.loc)
    else
      have := length_rest_next_lt h ht
      let (more, ending) := cur'.lexemes
      (⟨t, cur'.loc⟩ :: more, ending)
termination_by cur.rest.length

/-- The tokens of a text before its end or first error, and that error if there is one. -/
def tokenize (cs : List Char) : List Token × Option LexError :=
  let (lexemes, ending) := (Cursor.ofChars cs).lexemes
  (lexemes.map Lexeme.token, match ending with
    | .eof _ => none
    | .failed e _ => some e)

/-- The results of `n` calls for the next token, each with the cursor after it. -/
def Cursor.steps : Nat → Cursor → List (Except LexError Token × Cursor)
  | 0, _ => []
  | n + 1, cur =>
    let result := cur.next
    result :: Cursor.steps n result.2

end SmallLisp
